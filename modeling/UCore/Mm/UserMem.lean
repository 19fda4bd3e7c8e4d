import UCore.Mm.VmaOrder

namespace UCore
set_option autoImplicit true
open Function (update)

/-- The address space has another area in its cache. -/
def Mem.setCache {A : PhysSys} (m : Mem A) (mm : Nat) (c : Option Vma) : Mem A :=
  m.setMm mm { m.mms mm with mmapCache := c }

/-- Each byte at the address may be read, or written, as far as the area is concerned: it has the flag, and the
first page of a stack is not to be written. -/
def Vma.Allows (vma : Vma) (write : Bool) (addr : Nat) : Prop :=
  vma.vmFlags &&& (if write then vmWrite else vmRead) ≠ 0 ∧
    ¬ (write ∧ vma.vmFlags &&& vmStack ≠ 0 ∧ addr < vma.vmStart + pgSize)

instance : Decidable (Vma.Allows vma write addr) := inferInstanceAs (Decidable (_ ∧ _))

/-- The areas of an address space are in order, and the one in the cache is among them. -/
structure VmaTidy (x : MmStruct) : Prop where
  inOrder : InOrder Vma.vmStart Vma.vmEnd x.mmapList
  cache : CacheIn x

section
variable {A : PhysSys} {m m' : Mem A} {vma : Vma} {c c' : Option Vma}

@[simp] theorem setCache_list (m : Mem A) (mm : Nat) (c : Option Vma) :
    ((m.setCache mm c).mms mm).mmapList = (m.mms mm).mmapList := by
  unfold Mem.setCache
  rw [setMm_self]

@[simp] theorem setCache_count (m : Mem A) (mm : Nat) (c : Option Vma) :
    ((m.setCache mm c).mms mm).mapCount = (m.mms mm).mapCount := by
  unfold Mem.setCache
  rw [setMm_self]

@[simp] theorem setCache_cache (m : Mem A) (mm : Nat) (c : Option Vma) :
    ((m.setCache mm c).mms mm).mmapCache = c := by
  unfold Mem.setCache
  rw [setMm_self]

@[simp] theorem setCache_setCache (m : Mem A) (mm : Nat) (c c' : Option Vma) :
    (m.setCache mm c).setCache mm c' = m.setCache mm c' := by
  unfold Mem.setCache Mem.setMm
  simp

/-- The cache stays as it is. -/
@[simp] theorem setCache_same (m : Mem A) (mm : Nat) : m.setCache mm (m.mms mm).mmapCache = m := by
  unfold Mem.setCache Mem.setMm
  simp

theorem VmaTidy.setCache (h : VmaTidy (m.mms mm)) (hc : ∀ vma, c = some vma → vma ∈ (m.mms mm).mmapList) :
    VmaTidy ((m.setCache mm c).mms mm) where
  inOrder := by
    rw [setCache_list]
    exact h.inOrder
  cache vma hv := by
    rw [setCache_cache] at hv
    rw [setCache_list]
    exact hc vma hv

/-- `find_vma` finds what a search of the list finds, whatever is in the cache. -/
theorem findVma_eq (h : VmaTidy (m.mms mm)) (addr : Nat) : m.findVma (some mm) addr =
    match (m.mms mm).mmapList.find? fun vma => vma.Covers addr with
    | some vma => (some vma, m.setCache mm (some vma))
    | none => (none, m) := by
  have hor : ((m.mms mm).mmapCache.filter fun vma => vma.Covers addr).or
      ((m.mms mm).mmapList.find? fun vma => vma.Covers addr) = (m.mms mm).mmapList.find? fun vma => vma.Covers addr := by
    cases hf : (m.mms mm).mmapCache.filter fun vma => vma.Covers addr with
    | none => rfl
    | some vma =>
      obtain ⟨hc, hcov⟩ := Option.filter_eq_some_iff.1 hf
      exact (h.inOrder.find?_iff.2 ⟨h.cache vma hc, of_decide_eq_true hcov⟩).symm
  unfold Mem.findVma
  dsimp only
  rw [hor]
  rfl

/-- `find_vma` finds the area at the address, if there is one. -/
theorem findVma_iff (h : VmaTidy (m.mms mm)) :
    (m.findVma (some mm) addr).1 = some vma ↔ vma ∈ (m.mms mm).mmapList ∧ vma.Covers addr := by
  rw [findVma_eq h]
  refine Iff.trans ?_ h.inOrder.find?_iff
  show _ ↔ (m.mms mm).mmapList.find? (fun vma => vma.Covers addr) = some vma
  cases (m.mms mm).mmapList.find? fun vma => vma.Covers addr <;> rfl

theorem findVma_found (h : VmaTidy (m.mms mm)) (hv : vma ∈ (m.mms mm).mmapList) (hc : vma.Covers addr) :
    m.findVma (some mm) addr = (some vma, m.setCache mm (some vma)) := by
  have hfind : ((m.mms mm).mmapList.find? fun vma => vma.Covers addr) = some vma := h.inOrder.find?_iff.2 ⟨hv, hc⟩
  rw [findVma_eq h, hfind]

theorem findVma_none (h : VmaTidy (m.mms mm)) (hn : ∀ vma ∈ (m.mms mm).mmapList, ¬ vma.Covers addr) :
    m.findVma (some mm) addr = (none, m) := by
  rw [findVma_eq h, List.find?_eq_none.2 fun vma hv => mt of_decide_eq_true (hn vma hv)]

/-- What a byte of an area allows, the later ones allow. -/
theorem Vma.Allows.mono (h : vma.Allows write a) (hab : a ≤ b) : vma.Allows write b := by
  refine ⟨h.1, fun hc => h.2 ⟨hc.1, hc.2.1, ?_⟩⟩
  exact Nat.lt_of_le_of_lt hab hc.2.2

/-- The loop of `user_mem_check` ends, and has seen every byte. -/
theorem userMemLoop_spec (h : VmaTidy (m.mms mm)) (stop : Nat) (write : Bool)
    (hf : ((m.mms mm).mmapList.countP fun vma => start < vma.vmEnd) < fuel) :
    ∃ b c, m.userMemLoop mm stop write start fuel = some (b, m.setCache mm c) ∧
      (∀ vma, c = some vma → vma ∈ (m.mms mm).mmapList) ∧
      (b = true ↔ ∀ a, start ≤ a → a < stop → ∃ vma ∈ (m.mms mm).mmapList, vma.Covers a ∧ vma.Allows write a) := by
  induction fuel generalizing m start with
  | zero => exact absurd hf (Nat.not_lt_zero _)
  | succ fuel ih =>
    rw [Mem.userMemLoop]
    by_cases hlt : start < stop
    · rw [if_pos hlt, findVma_eq h]
      have hstep := h.inOrder.covered_step (fun vma a => vma.Allows write a) hlt
      cases hfind : (m.mms mm).mmapList.find? fun vma => vma.Covers start with
      | none =>
        refine ⟨false, (m.mms mm).mmapCache, by rw [setCache_same], h.cache, ?_⟩
        refine iff_of_false Bool.false_ne_true fun hall => ?_
        obtain ⟨vma, hv, hcov, -⟩ := hall start (Nat.le_refl _) hlt
        have hno := List.find?_eq_none.1 hfind vma hv
        exact hno (decide_eq_true hcov)
      | some vma =>
        obtain ⟨hv, hcov⟩ := h.inOrder.find?_iff.1 hfind
        have hcache (w : Vma) (hw : some vma = some w) : w ∈ (m.mms mm).mmapList := Option.some.inj hw ▸ hv
        have hcase : (∀ a, start ≤ a → a < stop → ∃ w ∈ (m.mms mm).mmapList, w.Covers a ∧ w.Allows write a) ↔
            vma.Allows write start ∧ ∀ a, vma.vmEnd ≤ a → a < stop →
              ∃ w ∈ (m.mms mm).mmapList, w.Covers a ∧ w.Allows write a := by
          refine hstep.trans ⟨?_, ?_⟩
          · rintro ⟨w, hw, hws, hgood, hrest⟩
            obtain rfl := h.inOrder.unique hv hw hcov hws
            exact ⟨hgood start (Nat.le_refl _) hlt hcov.2, hrest⟩
          · rintro ⟨hgood, hrest⟩
            exact ⟨vma, hv, hcov, fun a ha _ _ => hgood.mono ha, hrest⟩
        rw [hcase]
        dsimp only
        rw [if_neg (Nat.not_lt.2 hcov.1)]
        by_cases hflag : vma.vmFlags &&& (if write then vmWrite else vmRead) = 0
        · rw [if_pos hflag]
          exact ⟨false, some vma, rfl, hcache, iff_of_false Bool.false_ne_true fun hc => hc.1.1 hflag⟩
        · rw [if_neg hflag]
          by_cases hguard : write ∧ vma.vmFlags &&& vmStack ≠ 0 ∧ start < vma.vmStart + pgSize
          · rw [if_pos hguard]
            exact ⟨false, some vma, rfl, hcache, iff_of_false Bool.false_ne_true fun hc => hc.1.2 hguard⟩
          · rw [if_neg hguard]
            have hcount : ((m.mms mm).mmapList.countP fun w => vma.vmEnd < w.vmEnd) <
                (m.mms mm).mmapList.countP fun w => start < w.vmEnd := countP_lt_hi hv hcov.2
            have hcount' : (((m.setCache mm (some vma)).mms mm).mmapList.countP fun w => vma.vmEnd < w.vmEnd) < fuel := by
              rw [setCache_list]
              exact Nat.lt_of_lt_of_le hcount (Nat.le_of_lt_succ hf)
            obtain ⟨b, c, hr, hin, hb⟩ := ih (h.setCache hcache) hcount'
            rw [setCache_setCache] at hr
            rw [setCache_list] at hin hb
            exact ⟨b, c, hr, hin, by rw [hb, and_iff_right ⟨hflag, hguard⟩]⟩
    · rw [if_neg hlt]
      refine ⟨true, (m.mms mm).mmapCache, by rw [setCache_same], h.cache, ?_⟩
      exact iff_of_true rfl fun a h₁ h₂ => absurd (Nat.lt_of_le_of_lt h₁ h₂) hlt

/-- The end of a range of addresses, computed with wrapping, is behind its start if it does not wrap. -/
theorem userAccess_addW (ha : addr < 2 ^ 64) (hl : len < 2 ^ 64) : UserAccess addr (addW addr len) ↔
    0 < len ∧ addr + len < 2 ^ 64 ∧ userBase ≤ addr ∧ addr + len ≤ userTop := by
  unfold UserAccess addW userBase userTop
  omega

theorem userMemCheck_spec (h : VmaTidy (m.mms mm)) (addr len : Nat) (write : Bool) :
    ∃ b c, m.userMemCheck (some mm) addr len write = some (b, m.setCache mm c) ∧
      (∀ vma, c = some vma → vma ∈ (m.mms mm).mmapList) ∧
      (b = true ↔ UserAccess addr (addW addr len) ∧ ∀ a, addr ≤ a → a < addW addr len →
        ∃ vma ∈ (m.mms mm).mmapList, vma.Covers a ∧ vma.Allows write a) := by
  unfold Mem.userMemCheck
  dsimp only
  by_cases hu : UserAccess addr (addW addr len)
  · rw [if_neg (not_not.2 hu)]
    have hf := Nat.lt_succ_of_le ((m.mms mm).mmapList.countP_le_length (p := fun vma => addr < vma.vmEnd))
    obtain ⟨b, c, hr, hin, hb⟩ := userMemLoop_spec h (addW addr len) write hf
    exact ⟨b, c, hr, hin, by rw [hb, and_iff_right hu]⟩
  · rw [if_pos hu]
    refine ⟨false, (m.mms mm).mmapCache, by rw [setCache_same], h.cache, ?_⟩
    exact iff_of_false Bool.false_ne_true fun hc => hu hc.1

/-- `user_mem_check` returns 1 exactly for the ranges all of whose bytes the process may access, and changes the
cache at most. -/
theorem user_mem_check_exact (h : VmaSorted (m.mms mm).mmapList) (hc : CacheIn (m.mms mm)) (ha : addr < 2 ^ 64)
    (hl : len < 2 ^ 64) (write : Bool) : ∃ b c, m.userMemCheck (some mm) addr len write = some (b, m.setCache mm c) ∧
      (b = true ↔ 0 < len ∧ addr + len < 2 ^ 64 ∧ userBase ≤ addr ∧ addr + len ≤ userTop ∧
        ∀ a, addr ≤ a → a < addr + len → ∃ vma ∈ (m.mms mm).mmapList, vma.Covers a ∧
          vma.vmFlags &&& (if write then vmWrite else vmRead) ≠ 0 ∧
          ¬ (write ∧ vma.vmFlags &&& vmStack ≠ 0 ∧ a < vma.vmStart + pgSize)) := by
  obtain ⟨b, c, hr, -, hb⟩ := userMemCheck_spec ⟨h.inOrder, hc⟩ addr len write
  refine ⟨b, c, hr, ?_⟩
  rw [hb, userAccess_addW ha hl, and_assoc, and_assoc, and_assoc]
  refine and_congr_right fun _ => and_congr_right fun hw => and_congr_right fun _ => and_congr_right fun _ => ?_
  rw [addW, Nat.mod_eq_of_lt hw]
  rfl

end

/-- A stack of two pages below a page that can only be read. -/
def stackMem : Mem framePool :=
  { poolMem with
    mms := fun _ => ⟨[⟨8, userBase, userBase + 2 * pgSize, vmRead ||| vmWrite ||| vmStack⟩,
      ⟨9, userBase + 2 * pgSize, userBase + 3 * pgSize, vmRead⟩], none, none, 2, false, 0⟩ }

theorem stackMem_sorted : VmaSorted (stackMem.mms 1).mmapList := by
  rw [vmaSorted_iff]
  exact ⟨by decide, by decide⟩

theorem user_mem_check_exact_stack :
    ∃ c, stackMem.userMemCheck (some 1) (userBase + 1) (2 * pgSize) false = some (true, stackMem.setCache 1 c) := by
  have haddr : userBase + 1 < 2 ^ 64 := by decide
  have hlen : 2 * pgSize < 2 ^ 64 := by decide
  obtain ⟨b, c, hr, -⟩ := user_mem_check_exact stackMem_sorted nofun haddr hlen false
  have hb : (stackMem.userMemCheck (some 1) (userBase + 1) (2 * pgSize) false).map Prod.fst = some true := by decide
  rw [hr, Option.map_some] at hb
  obtain rfl : b = true := Option.some.inj hb
  exact ⟨c, hr⟩

end UCore
