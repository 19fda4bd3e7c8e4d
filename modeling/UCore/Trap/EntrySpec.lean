import UCore.Trap.Entry

namespace UCore
set_option autoImplicit true
open Function (update)

section
variable {h h' : Hart} {r : Reg} {sym : Sym → BitVec 64} {back : BitVec 64} {a : Nat}

/-- Where a trap saves the registers: below the kernel stack pointer in `sscratch`, or on the current stack. -/
def Hart.trapBase (h : Hart) : BitVec 64 := if h.csr .sscratch ≠ 0 then h.csr .sscratch else h.get .sp

/-- The handler runs with the trap frame at `a` that `SAVE_ALL` has made of `h`. -/
structure Saved (h h' : Hart) (a : Nat) : Prop where
  frame : h'.frame a = ⟨h.get, h.csr .sstatus, h.csr .sepc, h.csr .stval, h.csr .scause⟩
  sp : (h'.get .sp).toNat = a
  arg : h'.get .a0 = h'.get .sp
  scratch : h'.csr .sscratch = 0
  csr : ∀ c ≠ .sscratch, h'.csr c = h.csr c
  kept : ∀ x, x < a ∨ a + frameSize ≤ x → h'.mem x = h.mem x
  user : h'.user = h.user

/-- The swap of the stack pointers at the start of `SAVE_ALL`. -/
theorem run_swap (h : Hart) (is : List Instr) : ∃ h₁ : Hart,
    h.run 0 (.csrrw .sp .sscratch .sp :: .bnez .sp 1 :: .csrr .sp .sscratch :: is) = h₁.run 0 is ∧
      h₁.get .sp = h.trapBase ∧ (∀ r ≠ .sp, h₁.get r = h.get r) ∧ h₁.csr .sscratch = h.get .sp ∧
      (∀ c ≠ .sscratch, h₁.csr c = h.csr c) ∧ h₁.mem = h.mem ∧ h₁.user = h.user := by
  have hsp : Reg.sp ≠ 0 := by decide
  have hget : ((h.set .sp (h.csr .sscratch)).setCsr .sscratch (h.get .sp)).get .sp = h.csr .sscratch := get_set_self
    (h := h) hsp
  unfold Hart.trapBase
  by_cases hs : h.csr .sscratch ≠ 0
  · refine ⟨(h.set .sp (h.csr .sscratch)).setCsr .sscratch (h.get .sp), ?_, ?_, fun r hr => get_set_ne hr,
      setCsr_self, fun c hc => setCsr_ne hc, rfl, rfl⟩
    · show Hart.run _ (if _ then 1 else 0) (.csrr .sp .sscratch :: is) = _
      rw [hget, if_pos hs]
      rfl
    · rw [hget, if_pos hs]
  · refine ⟨(((h.set .sp (h.csr .sscratch)).setCsr .sscratch (h.get .sp)).set .sp (h.get .sp)), ?_, ?_,
      fun r hr => (get_set_ne hr).trans (get_set_ne hr), (congrFun set_csr _).trans setCsr_self, fun c hc =>
        setCsr_ne hc, rfl, rfl⟩
    · show Hart.run _ (if _ then 1 else 0) (.csrr .sp .sscratch :: is) = _
      rw [hget, if_neg hs]
      show Hart.run (((h.set .sp (h.csr .sscratch)).setCsr .sscratch (h.get .sp)).set .sp
        (((h.set .sp (h.csr .sscratch)).setCsr .sscratch (h.get .sp)).csr .sscratch)) 0 is = _
      rw [setCsr_self]
    · rw [get_set_self hsp, if_neg hs]

/-- The reads of the control registers in `SAVE_ALL`. -/
theorem run_reads (h : Hart) (is : List Instr) : ∃ h₁ : Hart,
    h.run 0 (.csrrw .s0 .sscratch 0 :: .csrr .s1 .sstatus :: .csrr .s2 .sepc :: .csrr .s3 .stval ::
      .csrr .s4 .scause :: is) = h₁.run 0 is ∧ h₁.get .sp = h.get .sp ∧ h₁.get .s0 = h.csr .sscratch ∧
      h₁.get .s1 = h.csr .sstatus ∧ h₁.get .s2 = h.csr .sepc ∧ h₁.get .s3 = h.csr .stval ∧
      h₁.get .s4 = h.csr .scause ∧ h₁.csr = update h.csr .sscratch 0 ∧ h₁.mem = h.mem ∧ h₁.user = h.user := by
  refine ⟨_, rfl, ?_, ?_, ?_, ?_, ?_, ?_, rfl, rfl, rfl⟩ <;> rfl

theorem savedRegs_mem (hr : r ≠ 2) : (r, r.val * regBytes) ∈ savedRegs :=
  List.mem_map.2 ⟨r, List.mem_filter.2 ⟨List.mem_finRange r, decide_eq_true hr⟩, rfl⟩

theorem savedRegs_offset : ∀ x ∈ savedRegs, x.2 % 8 = 0 ∧ x.2 < frameSize ∧ x.2 = x.1.val * regBytes := by decide

theorem savedRegs_nodup : (savedRegs.map Prod.snd).Nodup := by decide

theorem sub_frame {x : BitVec 64} (hf : frameSize ≤ x.toNat) : (x + -.ofNat 64 frameSize).toNat = x.toNat - frameSize
    := by
  have hx := x.isLt
  rw [← BitVec.sub_eq_add_neg, BitVec.toNat_sub, BitVec.toNat_ofNat]
  simp only [frameSize, regBytes] at hf ⊢
  omega

theorem savedCsrs_offset : ∀ x ∈ savedCsrs, x.2 % 8 = 0 ∧ x.2 < frameSize := by decide

theorem run_alltraps (h : Hart) (sym : Sym → BitVec 64) (back : BitVec 64) (hb : h.trapBase.toNat % 8 = 0)
    (hf : frameSize ≤ h.trapBase.toNat) : ∃ h',
    h.runCode sym back alltraps = some h' ∧ Saved h h' (h.trapBase.toNat - frameSize) ∧ h'.get .ra = back ∧
      h'.pc = sym .trap := by
  have hlt := h.trapBase.isLt
  have hsize : frameSize = 288 := rfl
  obtain ⟨h₁, hrun₁, hsp₁, hreg₁, hscr₁, hcsr₁, hmem₁, huser₁⟩ := run_swap h
    (.addi .sp .sp (-.ofNat 64 frameSize) :: (storeRegs .sp savedRegs ++ (.csrrw .s0 .sscratch 0 :: .csrr .s1 .sstatus ::
      .csrr .s2 .sepc :: .csrr .s3 .stval :: .csrr .s4 .scause :: (storeRegs .sp savedCsrs ++ [.mv .a0 .sp]))))
  -- the stack pointer goes down
  let h₂ := h₁.set .sp (h₁.get .sp + -.ofNat 64 frameSize)
  have hsp₂ : (h₂.get .sp).toNat = h.trapBase.toNat - frameSize := by
    rw [show h₂.get .sp = h₁.get .sp + -.ofNat 64 frameSize from get_set_self (by decide), hsp₁, sub_frame hf]
  have hreg₂ (r : Reg) (hr : r ≠ .sp) : h₂.get r = h.get r := (get_set_ne hr).trans (hreg₁ r hr)
  have hstores₁ := run_stores h₂ .sp savedRegs
    (.csrrw .s0 .sscratch 0 :: .csrr .s1 .sstatus :: .csrr .s2 .sepc :: .csrr .s3 .stval :: .csrr .s4 .scause ::
      (storeRegs .sp savedCsrs ++ [.mv .a0 .sp])) (by omega) fun x hx => by
        obtain ⟨h8, hlt', -⟩ := savedRegs_offset x hx
        exact ⟨h8, by omega⟩
  rw [hsp₂] at hstores₁
  -- the control registers are read
  obtain ⟨h₃, hrun₃, hsp₃, hs0, hs1, hs2, hs3, hs4, hcsr₃, hmem₃, huser₃⟩ := run_reads
    { h₂ with mem := storesAt h₂.get (h.trapBase.toNat - frameSize) h₂.mem savedRegs }
    (storeRegs .sp savedCsrs ++ [.mv .a0 .sp])
  have hsp₃' : (h₃.get .sp).toNat = h.trapBase.toNat - frameSize := by rw [hsp₃, ← hsp₂]; rfl
  have hstores₂ := run_stores h₃ .sp savedCsrs [.mv .a0 .sp] (by omega) fun x hx => by
    obtain ⟨h8, hlt'⟩ := savedCsrs_offset x hx
    exact ⟨h8, by omega⟩
  rw [hsp₃'] at hstores₂
  generalize hM : storesAt h₃.get (h.trapBase.toNat - frameSize) h₃.mem savedCsrs = M at hstores₂
  have hrun : h.run 0 alltraps.body = some (Hart.set { h₃ with mem := M } .a0 (h₃.get .sp)) := by
    rw [show alltraps.body = saveAll ++ [.mv .a0 .sp] from rfl, saveAll_eq]
    simp only [List.cons_append, List.append_assoc]
    rw [hrun₁, run_addi, hstores₁, hrun₃, hstores₂, run_mv, run_nil]
    rfl
  have hnodup : (savedCsrs.map Prod.snd).Nodup := by decide
  have hlast (r : Reg) (k : Nat) (hx : (r, k * regBytes) ∈ savedCsrs) :
      M (h.trapBase.toNat - frameSize + k * regBytes) = h₃.get r := by
    rw [← hM]
    exact storesAt_mem hnodup hx
  have hother (x : Nat) (hx : ∀ y ∈ savedCsrs, h.trapBase.toNat - frameSize + y.2 ≠ x) : M x = h₃.mem x := by
    rw [← hM]
    exact storesAt_outside hx
  have hcsr (c : Csr) (hc : c ≠ .sscratch) : h₃.csr c = h.csr c := by
    rw [hcsr₃, Function.update_of_ne hc]
    exact hcsr₁ c hc
  -- a word of the first group is not stored again
  have hfirst (r : Reg) (hr : r ≠ 2) : M (h.trapBase.toNat - frameSize + r * regBytes) = h.get r := by
    have hout : ∀ x ∈ savedCsrs, x.2 ≠ r * regBytes := by
      revert r
      decide
    rw [hother _ fun x hx he => hout x hx (Nat.add_left_cancel he), hmem₃]
    exact (storesAt_mem savedRegs_nodup (savedRegs_mem hr)).trans (hreg₂ r hr)
  refine ⟨_, congrArg (Option.map _) hrun, ⟨?_, ?_, ?_, ?_, ?_, ?_, ?_⟩, ?_, rfl⟩
  · have hgpr : (fun r : Reg => M (h.trapBase.toNat - frameSize + r * regBytes)) = h.get := by
      funext r
      by_cases hr : r = 2
      · rw [hr]
        exact (hlast .s0 2 (by decide)).trans (hs0.trans hscr₁)
      · exact hfirst r hr
    refine TrapFrame.ext hgpr ?_ ?_ ?_ ?_
    · exact (hlast .s1 32 (by decide)).trans (hs1.trans (hcsr₁ _ (by decide)))
    · exact (hlast .s2 33 (by decide)).trans (hs2.trans (hcsr₁ _ (by decide)))
    · exact (hlast .s3 34 (by decide)).trans (hs3.trans (hcsr₁ _ (by decide)))
    · exact (hlast .s4 35 (by decide)).trans (hs4.trans (hcsr₁ _ (by decide)))
  · exact hsp₃'
  · rfl
  · exact (congrFun hcsr₃ _).trans (Function.update_self ..)
  · exact hcsr
  · intro x hx
    have hx₂ : ∀ y ∈ savedCsrs, h.trapBase.toNat - frameSize + y.2 ≠ x := fun y hy he => by
      have hlt' := (savedCsrs_offset y hy).2
      omega
    have hx₁ : ∀ y ∈ savedRegs, h.trapBase.toNat - frameSize + y.2 ≠ x := fun y hy he => by
      have hlt' := (savedRegs_offset y hy).2.1
      omega
    refine (hother x hx₂).trans ?_
    rw [hmem₃]
    exact (storesAt_outside hx₁).trans (congrFun hmem₁ x)
  · exact huser₃.trans huser₁
  · rfl


/-- The processor goes back to what the trap frame says. -/
structure Restored (tf : TrapFrame) (a : Nat) (h h' : Hart) : Prop where
  reg : ∀ r ≠ 0, h'.get r = tf.gpr r
  pc : h'.pc = tf.epc
  user : h'.user = decide (tf.status &&& statusSpp = 0)
  scratch : h'.csr .sscratch = if tf.status &&& statusSpp = 0 then .ofNat 64 (a + frameSize) else h.csr .sscratch
  status : h'.csr .sstatus = sretStatus tf.status
  csr : ∀ c, c ≠ .sscratch → c ≠ .sstatus → c ≠ .sepc → h'.csr c = h.csr c
  mem : h'.mem = h.mem

/-- The choice of `RESTORE_ALL`, which puts the kernel stack pointer into `sscratch` on the way to user mode. -/
theorem run_unwind (h : Hart) (is : List Instr) : ∃ h₁ : Hart,
    h.run 0 (.andi .s0 .s1 statusSpp :: .bnez .s0 2 :: .addi .s0 .sp (.ofNat 64 frameSize) :: .csrw .sscratch .s0 ::
        is) = h₁.run 0 is ∧ (∀ r ≠ .s0, h₁.get r = h.get r) ∧
      h₁.csr .sscratch = (if h.get .s1 &&& statusSpp = 0 then .ofNat 64 ((h.get .sp).toNat + frameSize)
        else h.csr .sscratch) ∧
      (∀ c ≠ .sscratch, h₁.csr c = h.csr c) ∧ h₁.mem = h.mem := by
  have hs0 : (h.set .s0 (h.get .s1 &&& statusSpp)).get .s0 = h.get .s1 &&& statusSpp := get_set_self (h := h) (by decide)
  by_cases hz : h.get .s1 &&& statusSpp = 0
  · refine ⟨Hart.setCsr (((h.set .s0 (h.get .s1 &&& statusSpp)).set .s0 (h.get .sp + .ofNat 64 frameSize))) .sscratch
      (h.get .sp + .ofNat 64 frameSize), ?_, fun r hr => (get_set_ne hr).trans (get_set_ne hr), ?_,
      fun c hc => setCsr_ne hc, rfl⟩
    · show Hart.run _ (if _ then 2 else 0) _ = _
      rw [hs0, if_neg (not_not.2 hz), run_addi, run_csrw, get_set_self (by decide),
        get_set_ne (by decide : Reg.sp ≠ .s0)]
    · rw [setCsr_self, if_pos hz]
      apply BitVec.eq_of_toNat_eq
      have hsize : frameSize = 288 := rfl
      rw [BitVec.toNat_add, BitVec.toNat_ofNat, BitVec.toNat_ofNat]
      omega
  · refine ⟨h.set .s0 (h.get .s1 &&& statusSpp), ?_, fun r hr => get_set_ne hr, ?_, fun c _ => rfl, rfl⟩
    · show Hart.run _ (if _ then 2 else 0) _ = _
      rw [hs0, if_pos hz]
      rfl
    · rw [if_neg hz]
      rfl

theorem restoredRegs_mem (hr₀ : r ≠ 0) (hr : r ≠ 2) : (r, r.val * regBytes) ∈ restoredRegs :=
  List.mem_map.2 ⟨r, List.mem_filter.2 ⟨List.mem_finRange r, decide_eq_true ⟨hr₀, hr⟩⟩, rfl⟩

theorem restoredRegs_offset : ∀ x ∈ restoredRegs, x.1 ≠ .sp ∧ x.2 % 8 = 0 ∧ x.2 < frameSize := by decide

theorem restoredRegs_nodup : (restoredRegs.map Prod.fst).Nodup := by decide

theorem run_trapret (h : Hart) (sym : Sym → BitVec 64) (back : BitVec 64) (hsp : (h.get .sp).toNat = a)
    (ha : a % 8 = 0) (hb : a + frameSize < 2 ^ 64) : ∃ h',
    h.runCode sym back trapret = some h' ∧ Restored (h.frame a) a h h' := by
  have hsize : frameSize = 288 := rfl
  have hsp0 : Reg.sp ≠ 0 := by decide
  -- the status and the address to go to
  have hloads₁ := run_loads h .sp restoredCsrs (.andi .s0 .s1 statusSpp :: .bnez .s0 2 ::
    .addi .s0 .sp (.ofNat 64 frameSize) :: .csrw .sscratch .s0 :: .csrw .sstatus .s1 :: .csrw .sepc .s2 ::
      (loadRegs .sp restoredRegs ++ loadRegs .sp [(2, 2 * regBytes)])) (by omega) (fun x hx => by
        have hoff : ∀ x ∈ restoredCsrs, x.2 % 8 = 0 ∧ x.2 < frameSize := by decide
        obtain ⟨h8, hlt⟩ := hoff x hx
        exact ⟨h8, by omega⟩) (by decide)
  rw [hsp] at hloads₁
  have hs1 : loadsAt h.mem a h.reg restoredCsrs .s1 = h.mem (a + 32 * regBytes) := loadsAt_mem (by decide) (by decide)
  have hs2 : loadsAt h.mem a h.reg restoredCsrs .s2 = h.mem (a + 33 * regBytes) := loadsAt_mem (by decide) (by decide)
  have hsp₁ : loadsAt h.mem a h.reg restoredCsrs .sp = h.reg .sp := loadsAt_outside (by decide)
  generalize loadsAt h.mem a h.reg restoredCsrs = g at hloads₁ hs1 hs2 hsp₁
  obtain ⟨h₂, hrun₂, hreg₂, hscr₂, hcsr₂, hmem₂⟩ := run_unwind { h with reg := g }
    (.csrw .sstatus .s1 :: .csrw .sepc .s2 :: (loadRegs .sp restoredRegs ++ loadRegs .sp [(2, 2 * regBytes)]))
  have hs1₂ : h₂.get .s1 = (h.frame a).status := (hreg₂ _ (by decide)).trans hs1
  have hs2₂ : h₂.get .s2 = (h.frame a).epc := (hreg₂ _ (by decide)).trans hs2
  have hsp₂ : h₂.get .sp = h.get .sp := (hreg₂ _ (by decide)).trans hsp₁
  -- the registers, the stack pointer last
  have hloads₂ := run_loads ((h₂.setCsr .sstatus (h.frame a).status).setCsr .sepc (h.frame a).epc) .sp
    restoredRegs (loadRegs .sp [(2, 2 * regBytes)]) (by
      rw [get_setCsr, get_setCsr, hsp₂]
      omega) (fun x hx => by
        obtain ⟨-, h8, hlt⟩ := restoredRegs_offset x hx
        rw [get_setCsr, get_setCsr, hsp₂]
        exact ⟨h8, by omega⟩) fun x hx => (restoredRegs_offset x hx).1
  rw [get_setCsr, get_setCsr, hsp₂, hsp] at hloads₂
  have hmem₃ : ((h₂.setCsr .sstatus (h.frame a).status).setCsr .sepc (h.frame a).epc).mem = h.mem := hmem₂
  rw [hmem₃] at hloads₂
  have hgpr (r : Reg) (hr₀ : r ≠ 0) (hr : r ≠ 2) :
      loadsAt h.mem a ((h₂.setCsr .sstatus (h.frame a).status).setCsr .sepc (h.frame a).epc).reg restoredRegs r =
        (h.frame a).gpr r := loadsAt_mem restoredRegs_nodup (restoredRegs_mem hr₀ hr)
  have hsp₃ : loadsAt h.mem a ((h₂.setCsr .sstatus (h.frame a).status).setCsr .sepc (h.frame a).epc).reg restoredRegs
      .sp = h.get .sp := (loadsAt_outside (by decide)).trans hsp₂
  generalize loadsAt h.mem a ((h₂.setCsr .sstatus (h.frame a).status).setCsr .sepc (h.frame a).epc).reg
    restoredRegs = g' at hloads₂ hgpr hsp₃
  generalize hh₃ : (h₂.setCsr .sstatus (h.frame a).status).setCsr .sepc (h.frame a).epc = h₃ at hloads₂ hmem₃
  have hld := run_ld { h₃ with reg := g' } 2 .sp (2 * regBytes) []
  rw [show Hart.get { h₃ with reg := g' } .sp = h.get .sp from hsp₃, hsp, run_nil] at hld
  have hrun : h.run 0 trapret.body = some (Hart.set { h₃ with reg := g' } 2 (h₃.mem (a + 2 * regBytes))) := by
    rw [show trapret.body = restoreAll from rfl, restoreAll_eq, hloads₁, hrun₂, run_csrw, run_csrw, hs1₂, get_setCsr,
      hs2₂, hh₃, hloads₂, ← hmem₃]
    refine hld ha (by decide) ?_
    rw [show 2 * regBytes = 16 from rfl]
    omega
  have hstatus : h₃.csr .sstatus = (h.frame a).status := by
    rw [← hh₃, setCsr_ne (by decide)]
    exact setCsr_self
  have hcsr₃ (c : Csr) (h₁ : c ≠ .sstatus) (h₂' : c ≠ .sepc) : h₃.csr c = h₂.csr c := by
    rw [← hh₃, setCsr_ne h₂', setCsr_ne h₁]
  refine ⟨_, congrArg (Option.map _) hrun, ⟨fun r hr₀ => ?_, ?_, ?_, ?_, ?_, fun c hc hc₁ hc₂ => ?_, ?_⟩⟩
  · by_cases hr : r = 2
    · rw [hr]
      refine (get_set_self (h := { h₃ with reg := g' }) (by decide)).trans ?_
      rw [hmem₃]
      rfl
    · exact (get_set_ne (h := { h₃ with reg := g' }) hr).trans ((get_ne hr₀).trans (hgpr r hr₀ hr))
  · show h₃.csr .sepc = _
    rw [← hh₃]
    exact setCsr_self
  · show decide (h₃.csr .sstatus &&& statusSpp = 0) = _
    rw [hstatus]
  · show update h₃.csr .sstatus (sretStatus (h₃.csr .sstatus)) .sscratch = _
    rw [Function.update_of_ne (by decide), hcsr₃ _ (by decide) (by decide), hscr₂,
      show Hart.get { h with reg := g } .s1 = (h.frame a).status from hs1,
      show Hart.get { h with reg := g } .sp = h.get .sp from hsp₁, hsp]
  · show update h₃.csr .sstatus (sretStatus (h₃.csr .sstatus)) .sstatus = _
    rw [Function.update_self, hstatus]
  · refine (Function.update_of_ne hc₁ ..).trans ?_
    show h₃.csr c = _
    rw [hcsr₃ c hc₁ hc₂, hcsr₂ c hc]
  · exact hmem₃

/-- `switch_to` from the context at `a` to the one at `b`. -/
structure Switched (a b : Nat) (h h' : Hart) : Prop where
  saved : ∀ x ∈ contextRegs, h'.mem (a + x.2) = h.get x.1
  loaded : ∀ x ∈ contextRegs, h'.get x.1 = h'.mem (b + x.2)
  pc : h'.pc = h'.mem b
  kept : ∀ y, y < a ∨ a + contextSize ≤ y → h'.mem y = h.mem y
  csr : h'.csr = h.csr
  user : h'.user = h.user

theorem contextRegs_offset : ∀ x ∈ contextRegs, x.2 % 8 = 0 ∧ x.2 < contextSize ∧ x.1 ≠ 0 ∧ x.1 ≠ .a1 := by decide

theorem run_switchTo (h : Hart) (sym : Sym → BitVec 64) (back : BitVec 64) {b : Nat} (ha : (h.get .a0).toNat = a)
    (hb : (h.get .a1).toNat = b) (ha8 : a % 8 = 0)
    (hb8 : b % 8 = 0) (hla : a + contextSize ≤ 2 ^ 64) (hlb : b + contextSize ≤ 2 ^ 64) : ∃ h',
    h.runCode sym back switchTo = some h' ∧ Switched a b h h' := by
  have hstores := run_stores h .a0 contextRegs (loadRegs .a1 contextRegs) (by omega)
    fun x hx => by
      obtain ⟨h8, hlt, -⟩ := contextRegs_offset x hx
      exact ⟨h8, by omega⟩
  rw [ha] at hstores
  have hsaved (x : Reg × Nat) (hx : x ∈ contextRegs) : storesAt h.get a h.mem contextRegs (a + x.2) = h.get x.1 :=
    storesAt_mem (by decide) hx
  have hkept (y : Nat) (hy : y < a ∨ a + contextSize ≤ y) : storesAt h.get a h.mem contextRegs y = h.mem y :=
    storesAt_outside fun x hx he => by
      have hlt := (contextRegs_offset x hx).2.1
      omega
  generalize storesAt h.get a h.mem contextRegs = M at hstores hsaved hkept
  have hloads := run_loads { h with mem := M } .a1 contextRegs []
    (by rwa [show Hart.get { h with mem := M } .a1 = h.get .a1 from rfl, hb]) (fun x hx => by
      obtain ⟨h8, hlt, -⟩ := contextRegs_offset x hx
      rw [show Hart.get { h with mem := M } .a1 = h.get .a1 from rfl, hb]
      exact ⟨h8, by omega⟩) fun x hx => (contextRegs_offset x hx).2.2.2
  rw [show Hart.get { h with mem := M } .a1 = h.get .a1 from rfl, hb, List.append_nil, run_nil] at hloads
  have hloaded (x : Reg × Nat) (hx : x ∈ contextRegs) : loadsAt M b h.reg contextRegs x.1 = M (b + x.2) :=
    loadsAt_mem (by decide) hx
  generalize loadsAt M b h.reg contextRegs = g at hloads hloaded
  have hrun : h.run 0 switchTo.body = some { h with reg := g, mem := M } := by
    rw [switchTo_eq, hstores, hloads]
  refine ⟨_, congrArg (Option.map _) hrun, ⟨hsaved, fun x hx => ?_, ?_, hkept, rfl, rfl⟩⟩
  · exact (get_ne (contextRegs_offset x hx).2.2.1).trans (hloaded x hx)
  · exact (get_ne (h := { h with reg := g, mem := M }) (by decide : (1 : Reg) ≠ 0)).trans (hloaded (.ra, 0) (by decide))

/-- `forkrets` makes the trap frame in its argument the current one. -/
theorem run_forkrets : h.runCode sym back forkrets = some { h.set .sp (h.get .a0) with pc := sym .trapret } := rfl

/-- The trap frame at `a` has been moved to `b`, and the processor is on its way to `__trapret` with it. -/
structure Moves (a b : Nat) (h h' : Hart) : Prop where
  frame : h'.frame b = h.frame a
  sp : (h'.get .sp).toNat = b
  kept : ∀ y, y < b ∨ b + frameSize ≤ y → h'.mem y = h.mem y
  csr : h'.csr = h.csr
  user : h'.user = h.user

theorem frameOffsets_mem (hk : k < 36) : k * regBytes ∈ frameOffsets :=
  List.mem_map.2 ⟨k, List.mem_reverse.2 (List.mem_range.2 hk), rfl⟩

theorem frameOffsets_offset : ∀ x ∈ frameOffsets, x % 8 = 0 ∧ x < frameSize := by decide

theorem run_kernelExecveRet (h : Hart) (sym : Sym → BitVec 64) (back : BitVec 64) {top : Nat}
    (ha : (h.get .a0).toNat = a) (htop : (h.get .a1).toNat = top) (ha8 : a % 8 = 0)
    (ht8 : top % 8 = 0) (hbelow : a + frameSize ≤ top) : ∃ h',
    h.runCode sym back kernelExecveRet = some h' ∧ Moves a (top - frameSize) h h' ∧ h'.pc = sym .trapret := by
  have hsize : frameSize = 288 := rfl
  have hlt := (h.get .a1).isLt
  let h₁ := h.set .a1 (h.get .a1 + -.ofNat 64 frameSize)
  have hsub : (h.get .a1 + -.ofNat 64 frameSize).toNat = top - frameSize := by
    rw [sub_frame (by omega), htop]
  have ha1 : (h₁.get .a1).toNat = top - frameSize := by
    rw [show h₁.get .a1 = h.get .a1 + -.ofNat 64 frameSize from get_set_self (by decide : Reg.a1 ≠ 0), hsub]
  have ha0 : (h₁.get .a0).toNat = a := by
    rw [show h₁.get .a0 = h.get .a0 from get_set_ne (by decide), ha]
  obtain ⟨g, hg, hcopies⟩ := run_copies h₁ .a0 .a1 .s1 frameOffsets
    [.mv .sp .a1] (by omega) (by omega) (fun o ho => by
      obtain ⟨h8, ho'⟩ := frameOffsets_offset o ho
      exact ⟨h8, by omega, by omega⟩) (by decide) (by decide) (by decide)
  rw [ha0, ha1] at hcopies
  obtain ⟨hin, hout⟩ := copiesAt_spec frameOffsets h.mem (by decide) (show a ≤ top - frameSize by omega)
  rw [show h₁.mem = h.mem from rfl] at hcopies
  generalize copiesAt a (top - frameSize) h.mem frameOffsets = M at hcopies hin hout
  have hrun : h.run 0 kernelExecveRet.body = some (Hart.set { h₁ with reg := g, mem := M } .sp (g .a1)) := by
    rw [kernelExecveRet_eq, run_addi, hcopies, run_mv, run_nil]
    rfl
  have hword (k : Nat) (hk : k < 36) : M (top - frameSize + k * regBytes) = h.mem (a + k * regBytes) :=
    hin _ (frameOffsets_mem hk)
  refine ⟨_, congrArg (Option.map _) hrun, ⟨?_, ?_, fun y hy => ?_, rfl, rfl⟩, rfl⟩
  · refine TrapFrame.ext (funext fun r => ?_) ?_ ?_ ?_ ?_
    · exact hword r (by omega)
    · exact hword 32 (by decide)
    · exact hword 33 (by decide)
    · exact hword 34 (by decide)
    · exact hword 35 (by decide)
  · show (Hart.get (Hart.set { h₁ with reg := g, mem := M } .sp (g .a1)) .sp).toNat = _
    rw [get_set_self (by decide : Reg.sp ≠ 0), hg _ (by decide)]
    exact ha1
  · exact hout y fun o ho he => by
      have hlt' := (frameOffsets_offset o ho).2
      omega

end

end UCore
