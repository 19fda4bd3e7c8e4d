import UCore.Mm.SwapSlots
import UCore.Mm.UserMem

namespace UCore
set_option autoImplicit true
open Function (update)

namespace Mem
variable {A : PhysSys}

/-- `do_pgfault` finds the entry `e` in use and calls `swap_in`. -/
def TakesSwapIn (m : Mem A) (mm addr : Nat) (e : BitVec 64) : Prop :=
  ∃ vma m₁ d pt i m₂, m.findVma (some mm) addr = (some vma, m₁) ∧ ¬ vma.vmStart > addr ∧
    (m₁.mms mm).pgdir = some d ∧ m₁.getPte d (roundDown addr pgSize) true = some (some (pt, i), m₂) ∧
    m₂.frame pt i = e ∧ e ≠ 0 ∧ m₂.swapInitOk = true

/-- `do_pgfault` returns an error without calling `swap_in`, and nothing changes but the cached area. -/
def RefusesFault (m : Mem A) (mm addr : Nat) : Prop :=
  ∃ ret c, m.doPgfault (some mm) addr = some (ret, m.setCache mm c) ∧ ret < 0 ∧ ∀ e, ¬ m.TakesSwapIn mm addr e

end Mem

section
variable {A : PhysSys} {m m' : Mem A} {w : Vma}

/-- Where the tables are there, `get_pte` allocates nothing. -/
theorem getPte_present (hs : m.pteSlot d la = some (some x)) (create : Bool) :
    m.getPte d la create = some (some x, m) := by
  unfold Mem.pteSlot at hs
  split at hs
  · rename_i h1
    obtain ⟨pd0, hpd0, hs⟩ := Option.bind_eq_some_iff.1 hs
    split at hs
    · rename_i h0
      obtain ⟨pt, hpt, hs⟩ := Option.bind_eq_some_iff.1 hs
      cases hs
      unfold Mem.getPte Mem.nextTable
      simp [h1, h0, hpd0, hpt]
    · cases hs
  · cases hs

/-- Whatever is in the cache, some area is found for an address of an area. -/
theorem findVma_covered (hw : w ∈ (m.mms mm).mmapList) (hc : w.Covers addr) :
    ∃ vma, m.findVma (some mm) addr = (some vma, m.setCache mm (some vma)) ∧ vma.vmStart ≤ addr := by
  unfold Mem.findVma
  dsimp only
  cases hf : ((m.mms mm).mmapCache.filter fun vma => vma.Covers addr).or
      ((m.mms mm).mmapList.find? fun vma => vma.Covers addr) with
  | none =>
    have hno := List.find?_eq_none.1 (Option.or_eq_none_iff.1 hf).2 w hw
    exact absurd (decide_eq_true hc) hno
  | some vma =>
    refine ⟨vma, rfl, ?_⟩
    rcases Option.or_eq_some_iff.1 hf with hf | ⟨-, hf⟩
    · exact (of_decide_eq_true (Option.filter_eq_some_iff.1 hf).2).1
    · have hcov := List.find?_some hf
      exact (of_decide_eq_true hcov).1

/-- What `do_pgfault` sees in front of the test of the entry, where the tables of the address are there. -/
theorem fault_slot (hw : w ∈ (m.mms mm).mmapList) (hc : w.Covers addr) (hpg : (m.mms mm).pgdir = some d)
    (hs : m.pteSlot d (roundDown addr pgSize) = some (some (pt, i))) :
    ∃ vma, m.findVma (some mm) addr = (some vma, m.setCache mm (some vma)) ∧ vma.vmStart ≤ addr ∧
      ((m.setCache mm (some vma)).mms mm).pgdir = some d ∧
      (m.setCache mm (some vma)).getPte d (roundDown addr pgSize) true =
        some (some (pt, i), m.setCache mm (some vma)) := by
  obtain ⟨vma, hv, hle⟩ := findVma_covered hw hc
  refine ⟨vma, hv, hle, ?_, getPte_present ?_ true⟩
  · unfold Mem.setCache
    rw [setMm_self]
    exact hpg
  · rw [← hs]
    exact pteSlot_frame rfl

/-- A fault on a valid entry is refused exactly while swapping is off; the entries that are in use and not valid are
those of `swap_out`. -/
theorem pgfault_present_iff (hw : w ∈ (m.mms mm).mmapList) (hc : w.Covers addr) (hpg : (m.mms mm).pgdir = some d) :
    (∀ pt i, m.pteSlot d (roundDown addr pgSize) = some (some (pt, i)) → pteValid (m.frame pt i) = true →
      (m.RefusesFault mm addr ↔ m.swapInitOk = false)) ∧
    ∀ dirs K mms e, ((slotMachine A dirs K mms).restrict (SwapOp.SwapsOwn dirs)).Reachable m →
      (SwapOp.doPgfault mm addr).Among mms → (SwapOp.doPgfault mm addr).SwapsOwn dirs m →
      m.TakesSwapIn mm addr e → pteValid e = false → e = Mem.swapEntry (roundDown addr pgSize) := by
  constructor
  · intro pt i hs hval
    obtain ⟨vma, hv, hle, hpg', hg⟩ := fault_slot hw hc hpg hs
    have hne : m.frame pt i ≠ 0 := by
      intro hz
      rw [hz] at hval
      cases hval
    cases hon : m.swapInitOk with
    | false =>
      refine iff_of_true ⟨-eNoMem, some vma, ?_, by decide, ?_⟩ rfl
      · have hon' : (m.setCache mm (some vma)).swapInitOk = false := hon
        have hne' : (m.setCache mm (some vma)).frame pt i ≠ 0#64 := hne
        unfold Mem.doPgfault
        rw [hv]
        simp [Nat.not_lt.2 hle, hpg', hg, hne', hon']
      · rintro e ⟨vma', m₁, d', pt', i', m₂, hv', -, hd, hg', -, -, hon'⟩
        cases hv.symm.trans hv'
        cases hpg'.symm.trans hd
        cases hg.symm.trans hg'
        exact absurd (hon.symm.trans hon') Bool.false_ne_true
    | true =>
      refine iff_of_false ?_ Bool.noConfusion
      rintro ⟨ret, c, -, -, hno⟩
      exact hno _ ⟨vma, _, d, pt, i, _, hv, Nat.not_lt.2 hle, hpg', hg, rfl, hne, hon⟩
  · rintro dirs K mms e hr ha hown ⟨vma, m₁, d', pt, i, m₂, hv, hstart, hd', hg, rfl, hne, -⟩ hval
    obtain ⟨⟨role, h⟩, hms⟩ := slotMachine_slotted hr
    obtain ⟨c, hd, hpgc⟩ := hms mm ha.1
    cases hpg.symm.trans hpgc
    have hla : roundDown addr pgSize < 2 ^ 38 := Nat.lt_of_le_of_lt (Nat.sub_le ..) ha.2
    have hF := Slotted.faultInv K m hd hpg
    have h₁ : Slotted dirs K m₁ role ∧ m.Keeps dirs m₁ := by
      rcases findVma_cases hv with rfl | ⟨c, rfl⟩
      · exact ⟨h, .refl ..⟩
      · exact h.cache c
    cases (hF.pgdir h₁).symm.trans hd'
    have hroot := ((hF.before.counted h₁).root d).2 hd
    obtain ⟨role₂, pt', h₂, -, hslot, hpt⟩ := hF.before.getPte h₁ hroot (vpn_lt hla)
      (fun m₃ hs mm' hcm => hown mm' m₃ ⟨hcm, d, hpg, vma, m₁, hv, hstart, .inl hs⟩) hg
    cases hslot
    have hpte := (hF.before.paged h₂).pteAt_node hpt (vpn_lt hla)
    rw [← hpte] at hval hne ⊢
    rw [(h₂.1.entry d hd _ (vpn_lt hla) ⟨hval, hne⟩).1, vpn_eq hla]
    unfold Mem.swapEntry
    rw [Nat.mul_div_cancel _ (by decide)]

end

/-- The first address space of `twoMem` has its page. -/
theorem twoMem_present : ∃ m, twoMachine.Reachable m ∧ (m.mms 1).pgdir = some 0x80200 ∧
    ⟨0, 0x1000, 0x2000, vmRead ||| vmWrite⟩ ∈ (m.mms 1).mmapList ∧
    m.pteSlot 0x80200 0x1000 = some (some (0x80301, 1)) ∧ pteValid (m.frame 0x80301 1) = true ∧
    m.doPgfault (some 1) 0x1000 = none := by
  have hrun : ((SwapOp.doPgfault 1 0x1000).run twoMem).map (fun m => decide ((m.mms 1).pgdir = some 0x80200 ∧
      (m.mms 1).mmapList = [⟨0, 0x1000, 0x2000, vmRead ||| vmWrite⟩] ∧
      m.pteSlot 0x80200 0x1000 = some (some (0x80301, 1)) ∧ pteValid (m.frame 0x80301 1) = true ∧
      (m.doPgfault (some 1) 0x1000).isNone)) = some true := by
    decide
  obtain ⟨m, hm, hval⟩ := Option.map_eq_some_iff.1 hrun
  obtain ⟨hpg, hl, hs, hv, hf⟩ := of_decide_eq_true hval
  have hr : twoMachine.Reachable m := .step (a := SwapOp.doPgfault 1 0x1000) (.init twoMem_init) (by decide) hm
  refine ⟨m, hr, hpg, ?_, hs, hv, Option.isNone_iff_eq_none.1 hf⟩
  rw [hl]
  exact List.mem_singleton_self _

theorem pgfault_present_iff_two : ∃ m : Mem framePool, twoMachine.Reachable m ∧
    (m.RefusesFault 1 0x1000 ↔ m.swapInitOk = false) := by
  obtain ⟨m, hr, hpg, hw, hs, hv, -⟩ := twoMem_present
  exact ⟨m, hr, (pgfault_present_iff hw (by decide) hpg).1 0x80301 1 hs hv⟩

/-- A fault on a page that is present panics, or with a larger disk another page takes its place. -/
theorem present_swapped_in : (∃ m : Mem framePool, twoMachine.Reachable m ∧
      m.pteSlot 0x80200 0x1000 = some (some (0x80301, 1)) ∧ pteValid (m.frame 0x80301 1) = true ∧
      m.doPgfault (some 1) 0x1000 = none ∧ ¬ m.RefusesFault 1 0x1000) ∧
    ((SwapOp.doPgfault 1 0x1000).run { twoMem with maxSwapOffset := 2 ^ 23 }).bind (fun m =>
      (m.doPgfault (some 1) 0x1000).map fun r => (r.1, m.mapped (0x80200, 1), r.2.mapped (0x80200, 1))) =
      some (0, some 0x80302, some 0x80303) := by
  constructor
  · obtain ⟨m, hr, -, -, hs, hv, hf⟩ := twoMem_present
    refine ⟨m, hr, hs, hv, hf, ?_⟩
    rintro ⟨ret, c, hret, -⟩
    rw [hf] at hret
    cases hret
  · decide

end UCore
