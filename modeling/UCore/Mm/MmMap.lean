import UCore.Mm.VmmSpec

namespace UCore
set_option autoImplicit true
open Function (update)

/-- A new area has been put between the others of an address space. -/
structure AreaAdded {A : PhysSys} (mm : Nat) (start stop : Nat) (flags : BitVec 32) (m m' : Mem A) : Prop where
  access : UserAccess start stop
  place : ∃ pre post ptr, (m.mms mm).mmapList = pre ++ post ∧
    (m'.mms mm).mmapList = pre ++ ⟨ptr, start, stop, flags⟩ :: post
  list : VmaList (m'.mms mm).mmapList

section
variable {A : PhysSys} {m m' : Mem A} {role : Nat → Role}

theorem roundDown_page (a : Nat) : roundDown a pgSize % pgSize = 0 := by
  unfold roundDown pgSize
  omega

theorem roundUp_page (a : Nat) : roundUp a pgSize % pgSize = 0 := roundDown_page _

theorem AreaAdded.perm (h : AreaAdded mm start stop flags m m') :
    ((m'.mms mm).mmapList.map Vma.area).Perm ((start, stop, flags) :: (m.mms mm).mmapList.map Vma.area) := by
  obtain ⟨pre, post, ptr, h₁, h₂⟩ := h.place
  rw [h₁, h₂, List.map_append, List.map_cons, List.map_append]
  exact List.perm_middle

/-- The new area is apart from the others. -/
theorem AreaAdded.apart (h : AreaAdded mm start stop flags m m') (hc : Covered (m.mms mm).mmapList v) :
    ¬ (start ≤ v * pgSize ∧ v * pgSize < stop) := by
  obtain ⟨pre, post, ptr, h₁, h₂⟩ := h.place
  obtain ⟨w, hw, hws, hwe⟩ := hc
  have hl := h.list.sorted
  rw [h₂] at hl
  obtain ⟨-, hpost, hcross⟩ := List.pairwise_append.1 hl
  rintro ⟨hs, he⟩
  rw [h₁] at hw
  rcases List.mem_append.1 hw with hw | hw
  · have hle : w.vmEnd ≤ start := hcross w hw _ (List.mem_cons_self ..)
    omega
  · have hle : stop ≤ w.vmStart := (List.pairwise_cons.1 hpost).1 w hw
    omega

/-- `mm_map` that returns 0 has added the area; otherwise the areas are as before. -/
theorem mmMap_spec (h : Paged m role) (hl : VmaList (m.mms mm).mmapList) (hc : CacheIn (m.mms mm))
    (hr : m.mmMap mm addr len flags = some (ret, m')) :
    ∃ role', HeapTook m m' role role' ∧ (m'.mms mm).pgdir = (m.mms mm).pgdir ∧ CacheIn (m'.mms mm) ∧
      if ret = 0 then AreaAdded mm (roundDown addr pgSize) (roundUp (addW addr len) pgSize) flags m m'
      else (m'.mms mm).mmapList = (m.mms mm).mmapList := by
  unfold Mem.mmMap at hr
  dsimp only at hr
  split at hr
  · cases hr
    exact ⟨role, .refl h, rfl, hc, by rw [if_neg (by decide)]⟩
  · rename_i hacc
    cases hf : m.findVma (some mm) (roundDown addr pgSize) with
    | mk found m₁ =>
      rw [hf] at hr
      obtain ⟨hc₁, hlist, -⟩ := findVma_some hc hf
      have htook : HeapTook m m₁ role role ∧ (m₁.mms mm).pgdir = (m.mms mm).pgdir := by
        rcases findVma_cases hf with rfl | ⟨c, rfl⟩
        · exact ⟨.refl h, rfl⟩
        · exact ⟨h.setMm .., by rw [setMm_self]⟩
      obtain ⟨htook, hpgdir⟩ := htook
      dsimp only at hr
      split at hr
      · cases hr
        exact ⟨role, htook, hpgdir, hc₁, by rw [if_neg (by decide), hlist]⟩
      · cases hv : m₁.vmaCreate (roundDown addr pgSize) (roundUp (addW addr len) pgSize) flags with
        | mk r m₂ =>
          obtain ⟨role₂, htook₂, hmms, -, hres⟩ := vmaCreate_spec htook.paged hv
          rw [hv] at hr
          rcases hres with ⟨rfl, -, -⟩ | ⟨ptr, rfl, -, -⟩
          · cases hr
            refine ⟨role₂, htook.trans htook₂, ?_, ?_, ?_⟩
            · rw [hmms, hpgdir]
            · rw [hmms]
              exact hc₁
            · rw [if_neg (by decide), hmms, hlist]
          · obtain ⟨m₃, hins, hr⟩ := Option.map_eq_some_iff.1 hr
            cases hr
            obtain ⟨pre, post, heq, hlt, hpre, hpost, rfl⟩ := insertVmaStruct_spec hins
            rw [hmms, hlist] at heq
            refine ⟨role₂, (htook.trans htook₂).trans (htook₂.paged.setMm ..), ?_, fun w hw => ?_, ?_⟩
            · rw [setMm_self]
              show (m₂.mms mm).pgdir = _
              rw [hmms, hpgdir]
            · rw [setMm_self] at hw ⊢
              have hmem := hc₁ w ((congrArg (fun f => (f mm).mmapCache) hmms).symm.trans hw)
              rw [hlist, heq] at hmem
              exact List.mem_append.2 ((List.mem_append.1 hmem).imp_right (List.mem_cons_of_mem _))
            · rw [if_pos rfl]
              refine ⟨not_not.1 hacc, ⟨pre, post, ptr, heq, by rw [setMm_self]⟩, ?_⟩
              rw [setMm_self]
              apply VmaList.insert
              · rwa [← heq]
              · exact ⟨roundDown_page _, roundUp_page _, not_not.1 hacc⟩
              · exact hpre
              · exact hpost

end

end UCore
