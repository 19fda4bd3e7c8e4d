import UCore.Mm.MmMap
import UCore.Mm.UserMem

namespace UCore
set_option autoImplicit true
open Function (update)

/-- The end of the pages with the bytes from `addr` to `addr + len`, without wrapping. -/
def pageEnd (addr len : Nat) : Nat := roundDown (addr + len + pgSize - 1) pgSize

/-- The pages of the range are some, lie in the user half, and have no address in common with an area. -/
structure Mappable (l : List Vma) (addr len : Nat) : Prop where
  access : UserAccess (roundDown addr pgSize) (pageEnd addr len)
  apart : ∀ w ∈ l, ∀ a, roundDown addr pgSize ≤ a → a < pageEnd addr len → ¬ w.Covers a

namespace Mem
variable {A : PhysSys}

/-- `mm_map` adds the pages of the range as an area if they can be mapped and `vma_create` succeeds; otherwise it
returns an error and leaves the areas alone. -/
def MmMapExact (m : Mem A) (mm addr len : Nat) (flags : BitVec 32) : Prop :=
  ∃ ret m', m.mmMap mm addr len flags = some (ret, m') ∧
    ((A.kmalloc m.phys).1 ≠ none ∧ Mappable (m.mms mm).mmapList addr len → ret = 0 ∧
      ∃ ptr, VmaAdded ⟨ptr, roundDown addr pgSize, pageEnd addr len, flags⟩ (m.mms mm) (m'.mms mm)) ∧
    (¬ ((A.kmalloc m.phys).1 ≠ none ∧ Mappable (m.mms mm).mmapList addr len) → ret < 0 ∧
      (m'.mms mm).mmapList = (m.mms mm).mmapList ∧ (m'.mms mm).mapCount = (m.mms mm).mapCount)

/-- `vma_create` fails, or the checks of `mm_map` refuse the range, or it does not wrap and no area starts in it. -/
def MmMapChecks (m : Mem A) (mm addr len : Nat) : Prop :=
  (A.kmalloc m.phys).1 = none ∨
    ¬ UserAccess (roundDown addr pgSize) (roundUp (addW addr len) pgSize) ∨
    (∃ w ∈ (m.mms mm).mmapList, w.Covers (roundDown addr pgSize)) ∨
    addr + len < 2 ^ 64 ∧ ∀ w ∈ (m.mms mm).mmapList,
      ¬ (roundDown addr pgSize < w.vmStart ∧ w.vmStart < roundUp (addW addr len) pgSize)

end Mem

section
variable {A : PhysSys} {m m' : Mem A} {flags : BitVec 32}

theorem pageEnd_of_access (h : UserAccess (roundDown addr pgSize) (pageEnd addr len)) :
    addr + len < 2 ^ 64 ∧ roundUp (addW addr len) pgSize = pageEnd addr len := by
  obtain ⟨-, -, h⟩ := h
  unfold pageEnd roundUp roundDown addW userTop at *
  unfold pgSize at *
  omega

theorem pageEnd_of_wrapped (hw : addr + len < 2 ^ 64)
    (h : UserAccess (roundDown addr pgSize) (roundUp (addW addr len) pgSize)) :
    roundUp (addW addr len) pgSize = pageEnd addr len := by
  obtain ⟨-, hlt, h⟩ := h
  unfold pageEnd roundUp roundDown addW userTop at *
  unfold pgSize at *
  omega

/-- What `mm_map` does with a range that its checks do not refuse. -/
theorem mmMap_unchecked (flags : BitVec 32) (h : VmaTidy (m.mms mm))
    (hu : UserAccess (roundDown addr pgSize) (roundUp (addW addr len) pgSize))
    (hn : ∀ w ∈ (m.mms mm).mmapList, ¬ w.Covers (roundDown addr pgSize)) : m.mmMap mm addr len flags =
      match m.vmaCreate (roundDown addr pgSize) (roundUp (addW addr len) pgSize) flags with
      | (none, m) => some (-eNoMem, m)
      | (some vma, m) => (m.insertVmaStruct mm vma).map fun m => (0, m) := by
  have hno : ¬ ∃ vma : Vma, vma ∈ (none : Option Vma) ∧ vma.vmStart < roundUp (addW addr len) pgSize := by
    rintro ⟨vma, hv, -⟩
    cases hv
  unfold Mem.mmMap
  dsimp only
  rw [if_neg (not_not.2 hu), findVma_none h hn]
  dsimp only
  exact (if_neg hno).trans rfl

theorem mmMap_refused (h : ¬ UserAccess (roundDown addr pgSize) (roundUp (addW addr len) pgSize)) :
    m.mmMap mm addr len flags = some (-eInval, m) := if_pos h

/-- `mm_map` refuses a range with an area at its first address. -/
theorem mmMap_covered (h : VmaTidy (m.mms mm))
    (hu : UserAccess (roundDown addr pgSize) (roundUp (addW addr len) pgSize)) (hw : w ∈ (m.mms mm).mmapList)
    (hc : w.Covers (roundDown addr pgSize)) :
    m.mmMap mm addr len flags = some (-eInval, m.setCache mm (some w)) := by
  have hyes : ∃ vma : Vma, vma ∈ some w ∧ vma.vmStart < roundUp (addW addr len) pgSize :=
    ⟨w, rfl, Nat.lt_of_le_of_lt hc.1 hu.2.1⟩
  unfold Mem.mmMap
  dsimp only
  rw [if_neg (not_not.2 hu), findVma_found h hw hc]
  dsimp only
  rw [if_pos hyes]

/-- An area that can be mapped is inserted. -/
theorem Mappable.insert (h : VmaTidy (m.mms mm)) (hm : Mappable (m.mms mm).mmapList addr len) (ptr : Nat)
    (flags : BitVec 32) : ∃ m', m.insertVmaStruct mm ⟨ptr, roundDown addr pgSize, pageEnd addr len, flags⟩ = some m' ∧
      VmaAdded ⟨ptr, roundDown addr pgSize, pageEnd addr len, flags⟩ (m.mms mm) (m'.mms mm) := by
  have hlt := hm.access.2.1
  have hsome : (m.insertVmaStruct mm ⟨ptr, roundDown addr pgSize, pageEnd addr len, flags⟩).isSome := by
    refine (insertVmaStruct_iff h.inOrder).2 ⟨hlt, fun w hw => ?_⟩
    refine (clear_iff (h.inOrder.pos w hw) hlt).2 fun a ha => ?_
    exact hm.apart w hw a ha.2.1 ha.2.2 ha.1
  obtain ⟨m', hr⟩ := Option.isSome_iff_exists.1 hsome
  exact ⟨m', hr, (insertVmaStruct_added h.inOrder hr).2.1⟩

/-- A range without wrapping in which no area starts can be mapped if the checks do not refuse it. -/
theorem mappable_of_checks (hw : addr + len < 2 ^ 64)
    (hu : UserAccess (roundDown addr pgSize) (roundUp (addW addr len) pgSize))
    (hn : ∀ w ∈ l, ¬ w.Covers (roundDown addr pgSize))
    (hs : ∀ w ∈ l, ¬ (roundDown addr pgSize < w.vmStart ∧ w.vmStart < roundUp (addW addr len) pgSize)) :
    Mappable l addr len := by
  have hend := pageEnd_of_wrapped hw hu
  rw [hend] at hu hs
  refine ⟨hu, fun w hwl a ha hlt hc => ?_⟩
  generalize roundDown addr pgSize = start at *
  by_cases hle : w.vmStart ≤ start
  · exact hn w hwl ⟨hle, Nat.lt_of_le_of_lt ha hc.2⟩
  · exact hs w hwl ⟨Nat.not_le.1 hle, Nat.lt_of_le_of_lt hc.1 hlt⟩

/-- `mm_map` behaves as it should exactly if an area that starts inside the range, behind its first address, or a
range that wraps does not get past its checks. -/
theorem mm_map_exact_iff (h : VmaSorted (m.mms mm).mmapList) (hc : CacheIn (m.mms mm)) :
    m.MmMapExact mm addr len flags ↔ m.MmMapChecks mm addr len := by
  have ht : VmaTidy (m.mms mm) := ⟨h.inOrder, hc⟩
  have hmap (hm : Mappable (m.mms mm).mmapList addr len) :
      UserAccess (roundDown addr pgSize) (roundUp (addW addr len) pgSize) := by
    rw [(pageEnd_of_access hm.access).2]
    exact hm.access
  have herr : -eInval < 0 ∧ -eNoMem < 0 := by decide
  by_cases hu : UserAccess (roundDown addr pgSize) (roundUp (addW addr len) pgSize)
  · by_cases hcov : ∃ w ∈ (m.mms mm).mmapList, w.Covers (roundDown addr pgSize)
    · refine iff_of_true ?_ (.inr (.inr (.inl hcov)))
      obtain ⟨w, hw, hwc⟩ := hcov
      refine ⟨_, _, mmMap_covered ht hu hw hwc, fun hm => ?_, fun _ => ⟨herr.1, setCache_list .., setCache_count ..⟩⟩
      exact absurd hwc (hm.2.apart w hw _ (Nat.le_refl _) hm.2.access.2.1)
    · have hn : ∀ w ∈ (m.mms mm).mmapList, ¬ w.Covers (roundDown addr pgSize) := fun w hw hwc => hcov ⟨w, hw, hwc⟩
      have hrun := mmMap_unchecked flags ht hu hn
      cases hk : A.kmalloc m.phys with
      | mk r s =>
        cases r with
        | none =>
          refine iff_of_true ?_ (.inl (by rw [hk]))
          unfold Mem.vmaCreate at hrun
          rw [hk] at hrun
          exact ⟨_, _, hrun, fun hm => absurd (by rw [hk]) hm.1, fun _ => ⟨herr.2, rfl, rfl⟩⟩
        | some ptr =>
          unfold Mem.vmaCreate at hrun
          rw [hk] at hrun
          change _ = ((m.setPhys s).insertVmaStruct mm _).map _ at hrun
          have hsome : (A.kmalloc m.phys).1 ≠ none := by
            rw [hk]
            exact Option.some_ne_none ptr
          by_cases hchecks : addr + len < 2 ^ 64 ∧ ∀ w ∈ (m.mms mm).mmapList,
              ¬ (roundDown addr pgSize < w.vmStart ∧ w.vmStart < roundUp (addW addr len) pgSize)
          · refine iff_of_true ?_ (.inr (.inr (.inr hchecks)))
            have hm := mappable_of_checks hchecks.1 hu hn hchecks.2
            obtain ⟨m', hins, hadd⟩ := Mappable.insert (m := m.setPhys s) ht hm ptr flags
            rw [pageEnd_of_wrapped hchecks.1 hu, hins] at hrun
            exact ⟨0, m', hrun, fun _ => ⟨rfl, ptr, hadd⟩, fun hno => absurd ⟨hsome, hm⟩ hno⟩
          · refine iff_of_false ?_ ?_
            · rintro ⟨ret, m', hr, hyes, hno⟩
              rw [hrun] at hr
              obtain ⟨m₁, hins, hr⟩ := Option.map_eq_some_iff.1 hr
              cases hr
              apply hchecks
              have hm : Mappable (m.mms mm).mmapList addr len := by
                by_contra hm
                exact absurd (hno fun hc => hm hc.2).1 (lt_irrefl 0)
              obtain ⟨hw, hend⟩ := pageEnd_of_access hm.access
              refine ⟨hw, fun w hwl hs => ?_⟩
              rw [hend] at hs
              exact hm.apart w hwl w.vmStart hs.1.le hs.2 ⟨Nat.le_refl _, ht.inOrder.pos w hwl⟩
            · rintro (hk' | hu' | hcov' | hc')
              · exact hsome hk'
              · exact hu' hu
              · exact hcov hcov'
              · exact hchecks hc'
  · refine iff_of_true ?_ (.inr (.inl hu))
    exact ⟨_, _, mmMap_refused hu, fun hm => absurd (hmap hm.2) hu, fun _ => ⟨herr.1, rfl, rfl⟩⟩

end

/-- An address space with one page as its area. -/
def onePageMem : Mem framePool :=
  { poolMem with
    mms := fun _ => ⟨[⟨8, userBase + pgSize, userBase + 2 * pgSize, vmRead⟩], none, none, 1, false, 0⟩ }

theorem onePageMem_sorted : VmaSorted (onePageMem.mms 1).mmapList := by
  rw [vmaSorted_iff]
  exact ⟨by decide, by decide⟩

theorem onePageMem_cache : CacheIn (onePageMem.mms 1) := by
  intro vma hv
  cases hv

theorem mm_map_exact_iff_one : onePageMem.MmMapExact 1 (userBase + 2 * pgSize + 1) 1 vmRead := by
  rw [mm_map_exact_iff onePageMem_sorted onePageMem_cache]
  exact .inr (.inr (.inr (by decide)))

/-- An area that starts in the second page of the range fails an assertion, and a range of almost 2 ^ 64 bytes is
taken for one page. -/
theorem mm_map_overlaps : onePageMem.mmMap 1 userBase (2 * pgSize) vmRead = none ∧
    ¬ onePageMem.MmMapExact 1 userBase (2 * pgSize) vmRead ∧
    (onePageMem.mmMap 1 (userBase + 256) (2 ^ 64 - 128) vmRead).map Prod.fst = some 0 ∧
    ¬ onePageMem.MmMapExact 1 (userBase + 256) (2 ^ 64 - 128) vmRead := by
  have h₁ : onePageMem.mmMap 1 userBase (2 * pgSize) vmRead = none := by decide
  have h₂ : (onePageMem.mmMap 1 (userBase + 256) (2 ^ 64 - 128) vmRead).map Prod.fst = some 0 := by decide
  have hno : ¬ UserAccess (roundDown (userBase + 256) pgSize) (pageEnd (userBase + 256) (2 ^ 64 - 128)) := by decide
  refine ⟨h₁, ?_, h₂, ?_⟩
  · rintro ⟨ret, m', hr, -⟩
    rw [h₁] at hr
    cases hr
  · rintro ⟨ret, m', hr, -, herr⟩
    rw [hr] at h₂
    obtain rfl : ret = 0 := Option.some.inj h₂
    exact absurd (herr fun hc => hno hc.2.access).1 (lt_irrefl 0)

end UCore
