import UCore.Mm.MmBlocks
import UCore.Process.LoadIcode
import UCore.Process.Proc

namespace UCore
set_option autoImplicit true
open Function (update)

namespace Mem
variable {A : PhysSys}

def mmCountInc (m : Mem A) (mm : Nat) : Mem A := m.setMm mm { m.mms mm with mmCount := (m.mms mm).mmCount + 1 }
def mmCountDec (m : Mem A) (mm : Nat) : Mem A := m.setMm mm { m.mms mm with mmCount := (m.mms mm).mmCount - 1 }

/-- `copy_mm` from `good_mm` on. -/
def goodMm (m : Mem A) (mm : Nat) : Option (Int × Option (Nat × Nat) × Mem A) := do
  let m := m.mmCountInc mm
  some (0, some (mm, (← (m.mms mm).pgdir) * pgSize), m)

/-- `copy_mm` for a process with the address space `oldmm`: the value it returns, and the `mm` and `cr3` of the
child if it sets them. -/
def copyMm (m : Mem A) (cloneFlags : BitVec 32) (oldmm : Option Nat) : Option (Int × Option (Nat × Nat) × Mem A) :=
  match oldmm with
  | none => some (0, none, m)
  | some oldmm =>
    if cloneFlags &&& cloneVm ≠ 0 then m.goodMm oldmm
    else
      match m.mmCreate with
      | (none, m) => some (-eNoMem, none, m)
      | (some mm, m) => do
        match ← m.setupPgdir mm with
        | (false, m) => some (-eNoMem, none, ← m.mmDestroy mm)
        | (true, m) => do
          let (ret, m) ← m.dupMmap mm oldmm
          if ret ≠ 0 then some (ret, none, ← m.badCleanupMmap mm) else m.goodMm mm

/-- What `do_exit` and `do_execve` do with the address space that the process leaves. -/
def dropMm (m : Mem A) (mm : Nat) : Option (Mem A) :=
  let m := m.mmCountDec mm
  if (m.mms mm).mmCount = 0 then m.badCleanupMmap mm else some m

end Mem

/-- In `m'` there is one more `mm_struct` than in `m`, which nobody uses yet. -/
structure Building {A : PhysSys} (procs : Finset Nat) (mm : Nat) (m m' : Mem A) : Prop where
  heap : HeapOk m' procs
  fresh : mm ∉ m.spaces
  spaces : m'.spaces = mm :: m.spaces
  mmCount : (m'.mms mm).mmCount = 0
  other : ∀ x ≠ mm, (m'.mms x).fixed = (m.mms x).fixed

/-- What `copy_mm` and `load_icode` do with the `mm_struct`s when they return `ret` and set `new`. -/
structure Created {A : PhysSys} (procs : Finset Nat) (ret : Int) (new : Option (Nat × Nat)) (m m' : Mem A) : Prop where
  heap : HeapOk m' procs
  old : ∀ x ∈ m.spaces, (m'.mms x).fixed = (m.mms x).fixed
  fail : ret ≠ 0 → new = none ∧ m'.spaces = m.spaces
  done : ret = 0 → ∃ mm d, new = some (mm, d * pgSize) ∧ mm ∉ m.spaces ∧ m'.spaces = mm :: m.spaces ∧
    (m'.mms mm).mmCount = 1 ∧ (m'.mms mm).pgdir = some d

section
variable {A : PhysSys} {m m' m₁ m₂ : Mem A} {procs : Finset Nat}

/-- The count of an `mm_struct` is changed. -/
theorem HeapOk.setCount (h : HeapOk m procs) (mm : Nat) (n : Int) :
    HeapOk (m.setMm mm { m.mms mm with mmCount := n }) procs := by
  have hsame (x : Nat) : ((m.setMm mm { m.mms mm with mmCount := n }).mms x).mmapList = (m.mms x).mmapList ∧
      ((m.setMm mm { m.mms mm with mmCount := n }).mms x).mmapCache = (m.mms x).mmapCache := by
    by_cases hx : x = mm
    · rw [hx, setMm_self]
      exact ⟨rfl, rfl⟩
    · rw [show (m.setMm mm _).mms x = m.mms x from Function.update_of_ne hx ..]
      exact ⟨rfl, rfl⟩
  refine ⟨h.nodup, h.proc, h.space, fun x hx v hv => ?_, fun x hx y hy hxy v hv w hw => ?_, fun x hx => ?_⟩
  · rw [(hsame x).1] at hv
    exact h.areas x hx v hv
  · rw [(hsame _).1] at hv hw
    exact h.apart x hx y hy hxy v hv w hw
  · obtain ⟨hin, hcache⟩ := h.tidy x hx
    refine ⟨?_, fun v hv => ?_⟩
    · rwa [(hsame x).1]
    · rw [(hsame x).2] at hv
      rw [(hsame x).1]
      exact hcache v hv

theorem HeapOk.mmCountInc (h : HeapOk m procs) : HeapOk (m.mmCountInc mm) procs := h.setCount mm _

theorem HeapOk.mmCountDec (h : HeapOk m procs) : HeapOk (m.mmCountDec mm) procs := h.setCount mm _

theorem HeapOk.building (h : HeapOk m procs) (hc : m.mmCreate = (some mm, m₁)) : Building procs mm m m₁ := by
  obtain ⟨h₁, hfresh, hspaces, hfixed, hother⟩ := h.mmCreate hc
  exact ⟨h₁, hfresh, hspaces, congrArg (fun x => x.2.2) hfixed, hother⟩

namespace Building

theorem grows (h : Building procs mm m m₁) (hg : MmGrows mm m₁ m₂) : Building procs mm m m₂ where
  heap := h.heap.grows hg
  fresh := h.fresh
  spaces := hg.spaces.trans h.spaces
  mmCount := hg.mmCount.trans h.mmCount
  other x hx := (hg.other x hx).trans (h.other x hx)

theorem old (h : Building procs mm m m₁) (hx : x ∈ m.spaces) : (m₁.mms x).fixed = (m.mms x).fixed := by
  refine h.other x ?_
  rintro rfl
  exact h.fresh hx

theorem mmDestroy (h : Building procs mm m m₁) (hd : m₁.mmDestroy mm = some m') (hr : ret ≠ 0) :
    Created procs ret none m m' := by
  have hmem : mm ∈ m₁.spaces := by
    rw [h.spaces]
    exact List.mem_cons_self ..
  obtain ⟨h', -, hspaces, hmms⟩ := h.heap.mmDestroy hmem hd
  refine ⟨h', fun x hx => ?_, fun _ => ⟨rfl, ?_⟩, fun hc => absurd hc hr⟩
  · rw [hmms]
    exact h.old hx
  · rw [hspaces, h.spaces, List.erase_cons_head]

theorem badCleanupMmap (h : Building procs mm m m₁) (hd : m₁.badCleanupMmap mm = some m') (hr : ret ≠ 0) :
    Created procs ret none m m' := by
  obtain ⟨m₂, h₁, hd⟩ := Option.bind_eq_some_iff.1 hd
  obtain ⟨m₃, h₂, hd⟩ := Option.bind_eq_some_iff.1 hd
  have hs := (SameSpaces.exitMmap h₁).trans (.putPgdir h₂)
  exact (h.grows (hs.grows mm)).mmDestroy hd hr

theorem goodMm (h : Building procs mm m m₁) (hg : m₁.goodMm mm = some (ret, new, m')) : Created procs ret new m m' := by
  obtain ⟨d, hd, hg⟩ := Option.bind_eq_some_iff.1 hg
  cases hg
  have hsame (x : Nat) (hx : x ≠ mm) : (m₁.mmCountInc mm).mms x = m₁.mms x := Function.update_of_ne hx ..
  refine ⟨h.heap.mmCountInc, fun x hx => ?_, nofun, fun _ => ⟨mm, d, rfl, h.fresh, h.spaces, ?_, hd⟩⟩
  · have hne : x ≠ mm := by
      rintro rfl
      exact h.fresh hx
    rw [hsame x hne]
    exact h.old hx
  · rw [Mem.mmCountInc, setMm_self, h.mmCount]
    rfl

end Building

theorem Created.failed (h : HeapOk m procs) (hs : SameSpaces m m') (hr : ret ≠ 0) : Created procs ret none m m' where
  heap := h.same hs
  old x _ := hs.fixed x
  fail _ := ⟨rfl, hs.spaces⟩
  done hc := absurd hc hr

/-- `copy_mm` of an address space that is not shared makes a new one. -/
theorem copyMm_created (h : HeapOk m procs) (hv : fl &&& cloneVm = 0)
    (hc : m.copyMm fl (some old) = some (ret, new, m')) : Created procs ret new m m' := by
  rw [Mem.copyMm, if_neg (not_not.2 hv)] at hc
  split at hc
  · rename_i m₁ hm
    cases hc
    exact .failed h (HeapOk.mmCreate_none hm) (by decide)
  · rename_i mm m₁ hm
    have hb := h.building hm
    obtain ⟨⟨ok, m₂⟩, hs, hc⟩ := Option.bind_eq_some_iff.1 hc
    have hb := hb.grows (.setupPgdir hs)
    cases ok with
    | false =>
      obtain ⟨m₃, hd, hc⟩ := Option.bind_eq_some_iff.1 hc
      cases hc
      exact hb.mmDestroy hd (by decide)
    | true =>
      obtain ⟨⟨r, m₃⟩, hdup, hc⟩ := Option.bind_eq_some_iff.1 hc
      have hb := hb.grows (.dupMmap hdup)
      dsimp only at hc
      split at hc
      · rename_i hne
        obtain ⟨m₄, hd, hc⟩ := Option.bind_eq_some_iff.1 hc
        cases hc
        exact hb.badCleanupMmap hd hne
      · exact hb.goodMm hc

theorem mmCountInc_self (m : Mem A) (mm : Nat) : ((m.mmCountInc mm).mms mm).fixed =
    ((m.mms mm).mmapList, (m.mms mm).pgdir, (m.mms mm).mmCount + 1) := by
  rw [Mem.mmCountInc, setMm_self]
  rfl

theorem mmCountDec_self (m : Mem A) (mm : Nat) : ((m.mmCountDec mm).mms mm).fixed =
    ((m.mms mm).mmapList, (m.mms mm).pgdir, (m.mms mm).mmCount - 1) := by
  rw [Mem.mmCountDec, setMm_self]
  rfl

theorem mmCountInc_other (m : Mem A) (hx : x ≠ mm) : (m.mmCountInc mm).mms x = m.mms x := Function.update_of_ne hx ..

theorem mmCountDec_other (m : Mem A) (hx : x ≠ mm) : (m.mmCountDec mm).mms x = m.mms x := Function.update_of_ne hx ..

/-- What `copy_mm` does with a shared address space. -/
theorem goodMm_shared (h : HeapOk m procs) (hg : m.goodMm mm = some (ret, new, m')) : HeapOk m' procs ∧ ret = 0 ∧
    m' = m.mmCountInc mm ∧ ∃ d, (m.mms mm).pgdir = some d ∧ new = some (mm, d * pgSize) := by
  obtain ⟨d, hd, hg⟩ := Option.bind_eq_some_iff.1 hg
  cases hg
  refine ⟨h.mmCountInc, rfl, rfl, d, ?_, rfl⟩
  rw [Mem.mmCountInc, setMm_self] at hd
  exact hd

theorem copyMm_heap (h : HeapOk m procs) (hc : m.copyMm fl old = some (ret, new, m')) : HeapOk m' procs := by
  cases old with
  | none =>
    cases hc
    exact h
  | some old =>
    by_cases hv : fl &&& cloneVm = 0
    · exact (copyMm_created h hv hc).heap
    · rw [Mem.copyMm, if_pos hv] at hc
      exact (goodMm_shared h hc).1

/-- What the last user and any other user of an address space leave behind. -/
theorem dropMm_cases (h : HeapOk m procs) (hm : mm ∈ m.spaces) (hd : m.dropMm mm = some m') : HeapOk m' procs ∧
    ((m.mms mm).mmCount ≠ 1 ∧ m' = m.mmCountDec mm ∨ (m.mms mm).mmCount = 1 ∧ m'.spaces = m.spaces.erase mm ∧
      ∀ x ≠ mm, (m'.mms x).fixed = (m.mms x).fixed) := by
  have hcount : ((m.mmCountDec mm).mms mm).mmCount = (m.mms mm).mmCount - 1 :=
    congrArg (fun x => x.2.2) (mmCountDec_self m mm)
  unfold Mem.dropMm at hd
  dsimp only at hd
  rw [hcount] at hd
  split at hd
  · rename_i hz
    obtain ⟨m₂, h₁, hd⟩ := Option.bind_eq_some_iff.1 hd
    obtain ⟨m₃, h₂, hd⟩ := Option.bind_eq_some_iff.1 hd
    have hs := (SameSpaces.exitMmap h₁).trans (.putPgdir h₂)
    have hm₃ : mm ∈ m₃.spaces := by
      rw [hs.spaces]
      exact hm
    obtain ⟨h', -, hspaces, hmms⟩ := (h.mmCountDec.same hs).mmDestroy hm₃ hd
    refine ⟨h', .inr ⟨by omega, ?_, fun x hx => ?_⟩⟩
    · rw [hspaces, hs.spaces]
      rfl
    · rw [hmms, hs.fixed, mmCountDec_other m hx]
  · rename_i hz
    cases hd
    exact ⟨h.mmCountDec, .inl ⟨by omega, rfl⟩⟩

end

end UCore
