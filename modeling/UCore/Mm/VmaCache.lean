import UCore.Lib.Machine
import UCore.Mm.UserMem

namespace UCore
set_option autoImplicit true
open Function (update)

/-- The operations on the areas of an address space. -/
inductive VmaOp where
  | insertVmaStruct (vma : Vma)
  | findVma (addr : Nat)
  | userMemCheck (addr len : Nat) (write : Bool)
  deriving DecidableEq

def VmaOp.run {A : PhysSys} (m : Mem A) (mm : Nat) : VmaOp → Option (Mem A)
  | insertVmaStruct vma => m.insertVmaStruct mm vma
  | findVma addr => some (m.findVma (some mm) addr).2
  | userMemCheck addr len write => (m.userMemCheck (some mm) addr len write).map Prod.snd

/-- The operations in any order, on an address space that `mm_create` has made. -/
def vmaMachine (A : PhysSys) (mm : Nat) : Machine (Mem A) VmaOp where
  init m := ∃ m₀ : Mem A, m₀.mmCreate = (some mm, m)
  enabled _ _ := True
  next m op := op.run m mm

section
variable {A : PhysSys} {m m' m₀ : Mem A} {vma : Vma}

/-- A new address space has no areas. -/
theorem mmCreate_empty (h : m₀.mmCreate = (some mm, m)) :
    (m.mms mm).mmapList = [] ∧ (m.mms mm).mmapCache = none ∧ (m.mms mm).mapCount = 0 := by
  unfold Mem.mmCreate at h
  cases hk : A.kmalloc m₀.phys with
  | mk r s =>
    rw [hk] at h
    cases r with
    | none => cases h
    | some p =>
      dsimp only at h
      split at h
      · cases h
        unfold Mem.swapInitMm
        dsimp only
        rw [Function.update_self, setMm_self]
        exact ⟨rfl, rfl, rfl⟩
      · cases h
        rw [setMm_self]
        exact ⟨rfl, rfl, rfl⟩

theorem VmaTidy.empty (hl : x.mmapList = []) (hc : x.mmapCache = none) : VmaTidy x where
  inOrder := by
    rw [hl]
    exact .nil
  cache vma hv := by
    rw [hc] at hv
    cases hv

/-- What is in the cache stays in the list when an area is inserted. -/
theorem VmaTidy.insert (h : VmaTidy (m.mms mm)) (hr : m.insertVmaStruct mm vma = some m') : VmaTidy (m'.mms mm) := by
  obtain ⟨-, hadd, hin⟩ := insertVmaStruct_added h.inOrder hr
  refine ⟨hin, fun w hw => ?_⟩
  obtain ⟨pre, post, -, hy⟩ := id hadd
  rw [hy] at hw
  exact hadd.perm.mem_iff.2 (List.mem_cons_of_mem _ (h.cache w hw))

theorem VmaTidy.findVma (h : VmaTidy (m.mms mm)) (addr : Nat) : VmaTidy ((m.findVma (some mm) addr).2.mms mm) := by
  rw [findVma_eq h]
  cases hf : (m.mms mm).mmapList.find? fun vma => vma.Covers addr with
  | none => exact h
  | some vma =>
    apply h.setCache
    intro w hw
    rw [← Option.some.inj hw]
    exact List.mem_of_find?_eq_some hf

theorem VmaTidy.step (h : VmaTidy (m.mms mm)) (op : VmaOp) (hr : op.run m mm = some m') : VmaTidy (m'.mms mm) := by
  cases op with
  | insertVmaStruct vma => exact h.insert hr
  | findVma addr =>
    cases hr
    exact h.findVma addr
  | userMemCheck addr len write =>
    obtain ⟨b, c, hc, hin, -⟩ := userMemCheck_spec h addr len write
    change (m.userMemCheck (some mm) addr len write).map Prod.snd = some m' at hr
    rw [hc] at hr
    cases hr
    exact h.setCache hin

theorem vmaMachine_tidy (h : (vmaMachine A mm).Reachable m) : VmaTidy (m.mms mm) := by
  apply h.invariant fun m => VmaTidy (m.mms mm)
  · rintro m ⟨m₀, hc⟩
    obtain ⟨hl, hca, -⟩ := mmCreate_empty hc
    exact .empty hl hca
  · intro m op m' hi _ hn
    exact hi.step op hn

/-- After any calls, `find_vma` returns what a search of the list without the cache would: the only area at the
address, or NULL if there is none. -/
theorem vma_cache_invisible (h : (vmaMachine A mm).Reachable m) (addr : Nat) :
    (m.findVma (some mm) addr).1 = (m.mms mm).mmapList.find? (fun vma => vma.Covers addr) ∧
    (∀ vma, (m.findVma (some mm) addr).1 = some vma ↔ vma ∈ (m.mms mm).mmapList ∧ vma.Covers addr) ∧
    ((m.findVma (some mm) addr).1 = none ↔ ∀ vma ∈ (m.mms mm).mmapList, ¬ vma.Covers addr) ∧
    ∀ v ∈ (m.mms mm).mmapList, ∀ w ∈ (m.mms mm).mmapList, v.Covers addr → w.Covers addr → v = w := by
  have ht := vmaMachine_tidy h
  have hfind : (m.findVma (some mm) addr).1 = (m.mms mm).mmapList.find? fun vma => vma.Covers addr := by
    rw [findVma_eq ht]
    cases (m.mms mm).mmapList.find? fun vma => vma.Covers addr <;> rfl
  refine ⟨hfind, fun vma => findVma_iff ht, ?_, fun v hv w hw => ht.inOrder.unique hv hw⟩
  rw [hfind, List.find?_eq_none]
  exact forall₂_congr fun vma _ => not_congr decide_eq_true_iff

end

instance (m : Mem A) (op : VmaOp) : Decidable ((vmaMachine A mm).enabled m op) := inferInstanceAs (Decidable True)

/-- Two areas are inserted, and the later one is in the cache when the other one is looked up. -/
theorem vma_cache_invisible_pool : ∃ m : Mem framePool, (vmaMachine framePool 1).Reachable m ∧
    (m.mms 1).mmapCache = some ⟨9, 1, 3, 1⟩ ∧ (m.findVma (some 1) 5).1 = some ⟨8, 5, 6, 1⟩ := by
  have hrun : ((vmaMachine framePool 1).exec poolMem.mmCreate.2
      [.insertVmaStruct ⟨8, 5, 6, 1⟩, .insertVmaStruct ⟨9, 1, 3, 1⟩, .findVma 2]).map (fun m =>
        ((m.mms 1).mmapCache, (m.mms 1).mmapList)) = some (some ⟨9, 1, 3, 1⟩, [⟨9, 1, 3, 1⟩, ⟨8, 5, 6, 1⟩]) := by
    decide
  obtain ⟨m, hm, hval⟩ := Option.map_eq_some_iff.1 hrun
  obtain ⟨hcache, hlist⟩ := Prod.mk.inj hval
  have hr : (vmaMachine framePool 1).Reachable m := Machine.Reachable.exec (.init ⟨poolMem, rfl⟩) hm
  refine ⟨m, hr, hcache, ?_⟩
  rw [(vma_cache_invisible hr 5).2.1, hlist]
  decide

end UCore
