import UCore.Lib.Intervals
import UCore.Mm.GetPte
import UCore.Mm.Vmm

namespace UCore
set_option autoImplicit true
open Function (update)

/-- The areas of an address space: whole pages of the user, in order and apart from each other. -/
structure VmaList (l : List Vma) : Prop where
  page : ∀ vma ∈ l, vma.vmStart % pgSize = 0 ∧ vma.vmEnd % pgSize = 0 ∧ UserAccess vma.vmStart vma.vmEnd
  sorted : l.Pairwise fun a b => a.vmEnd ≤ b.vmStart

/-- The page number lies in one of the areas. -/
def Covered (l : List Vma) (v : Nat) : Prop := ∃ vma ∈ l, vma.Covers (v * pgSize)

/-- What an area is, without the address of its structure. -/
def Vma.area (vma : Vma) : Nat × Nat × BitVec 32 := (vma.vmStart, vma.vmEnd, vma.vmFlags)

section
variable {A : PhysSys} {m m' m'' : Mem A} {role role' role'' : Nat → Role}

theorem pteAt_of_frame (h : m'.frame = m.frame) (d v : Nat) : m'.pteAt d v = m.pteAt d v := by
  unfold Mem.pteAt
  rw [h]

/-- The heap has taken frames at most. -/
structure HeapTook {A : PhysSys} (m m' : Mem A) (role role' : Nat → Role) : Prop where
  paged : Paged m' role'
  keeps : ∀ f, role f ≠ .free → role' f = role f
  fresh : ∀ f, role f = .free → role' f = .free ∨ role' f = .other
  frame : m'.frame = m.frame
  ref : m'.ref = m.ref
  swapInitOk : m'.swapInitOk = m.swapInitOk
  checkMm : m'.checkMm = m.checkMm
  oom : m.oom ≤ m'.oom

theorem Paged.kmalloc {s : A.σ} (h : Paged m role) (hk : A.kmalloc m.phys = (r, s)) :
    ∃ role', HeapTook m (m.setPhys s) role role' := by
  classical
  have hfree (f : Nat) (hf : A.free s f) : role f = .free := by
    by_contra hn
    rcases (A.kmalloc_free hk).1 (.inl hf) with hc | hc
    · exact hn ((h.free f).2 hc)
    · exact A.free_arena hf (A.kmalloc_arena hk hc)
  let role' (f : Nat) : Role := if role f = .free ∧ ¬ A.free s f then .other else role f
  have hkeep (f : Nat) (hf : role f ≠ .free) : role' f = role f := if_neg fun hc => hf hc.1
  have hfresh (f : Nat) (hf : role f = .free) : role' f = .free ∨ role' f = .other := by
    by_cases hs : A.free s f
    · exact .inl ((if_neg fun hc => hc.2 hs).trans hf)
    · exact .inr (if_pos ⟨hf, hs⟩)
  have hnode (f d : Nat) (p : List Nat) : role' f = .node d p ↔ role f = .node d p := by
    by_cases hf : role f = .free
    · rw [hf]
      rcases hfresh f hf with hr | hr <;> simp [hr]
    · rw [hkeep f hf]
  refine ⟨role', ⟨h.tables.retag hnode fun f d p i hf hp hi hv => ?_, fun f => ?_, fun f hf => ?_,
    fun f hf => ?_⟩, hkeep, hfresh, rfl, rfl, rfl, rfl, Nat.le_refl _⟩
  · have hl := h.tables.leaf f d p i hf hp hi hv
    rw [hkeep _ (by rw [hl]; simp), hl]
  · show _ ↔ A.free s f
    constructor
    · intro hf
      by_contra hs
      by_cases hr : role f = .free
      · rw [show role' f = .other from if_pos ⟨hr, hs⟩] at hf
        cases hf
      · rw [hkeep f hr] at hf
        exact hr hf
    · intro hs
      exact (if_neg fun hc => hc.2 hs).trans (hfree f hs)
  · show _ ∧ _ ∧ ¬ A.arena s f
    have hro : role f ≠ .other := by
      intro hr
      rw [hkeep f (by rw [hr]; simp)] at hf
      exact hf hr
    obtain ⟨h₁, h₂, h₃⟩ := h.pool f hro
    refine ⟨h₁, h₂, fun ha => ?_⟩
    rcases (A.kmalloc_free hk).1 (.inr ha) with hc | hc
    · have hr := (h.free f).2 hc
      by_cases hs : A.free s f
      · exact A.free_arena hs ha
      · exact hf (if_pos ⟨hr, hs⟩)
    · exact h₃ hc
  · apply h.unused
    by_contra hr
    rw [hkeep f hr] at hf
    exact hr hf

theorem HeapTook.adds (h : HeapTook m m' role role') (d : Nat) : Adds d m m' role role' where
  paged := h.paged
  swapInitOk := h.swapInitOk
  checkMm := h.checkMm
  keeps := h.keeps
  fresh f hf c p hr := by
    rcases h.fresh f hf with hr' | hr' <;> rw [hr] at hr' <;> cases hr'
  frame f _ _ := by rw [h.frame]
  high i _ := by rw [h.frame]
  ref f _ := by rw [h.ref]
  oom := h.oom
  pte v _ _ := pteAt_of_frame h.frame d v

theorem HeapTook.refl (h : Paged m role) : HeapTook m m role role where
  paged := h
  keeps _ _ := rfl
  fresh _ hf := .inl hf
  frame := rfl
  ref := rfl
  swapInitOk := rfl
  checkMm := rfl
  oom := Nat.le_refl _

@[simp] theorem setMm_self (m : Mem A) (mm : Nat) (v : MmStruct) : (m.setMm mm v).mms mm = v :=
  Function.update_self ..

theorem Paged.setMm (h : Paged m role) (mm : Nat) (v : MmStruct) : HeapTook m (m.setMm mm v) role role where
  paged := ⟨h.tables, h.free, h.pool, h.unused⟩
  keeps _ _ := rfl
  fresh _ hf := .inl hf
  frame := rfl
  ref := rfl
  swapInitOk := rfl
  checkMm := rfl
  oom := Nat.le_refl _

theorem HeapTook.trans (h : HeapTook m m' role role') (h' : HeapTook m' m'' role' role'') :
    HeapTook m m'' role role'' where
  paged := h'.paged
  keeps f hf := by
    have hr := h.keeps f hf
    rw [h'.keeps f (by rwa [hr]), hr]
  fresh f hf := by
    rcases h.fresh f hf with hr | hr
    · exact h'.fresh f hr
    · exact .inr ((h'.keeps f (by rw [hr]; simp)).trans hr)
  frame := h'.frame.trans h.frame
  ref := h'.ref.trans h.ref
  swapInitOk := h'.swapInitOk.trans h.swapInitOk
  checkMm := h'.checkMm.trans h.checkMm
  oom := Nat.le_trans h.oom h'.oom

/-- Other variables do not matter. -/
theorem HeapTook.congr (h : HeapTook m m' role role') (hp : m''.phys = m'.phys) (hf : m''.frame = m'.frame)
    (hr : m''.ref = m'.ref) (hs : m''.swapInitOk = m'.swapInitOk) (hc : m''.checkMm = m'.checkMm)
    (ho : m''.oom = m'.oom) : HeapTook m m'' role role' where
  paged := by
    refine ⟨?_, fun f => ?_, fun f hn => ?_, fun f hn => ?_⟩
    · rw [hf]
      exact h.paged.tables
    · rw [hp]
      exact h.paged.free f
    · rw [hp]
      exact h.paged.pool f hn
    · rw [hr]
      exact h.paged.unused f hn
  keeps := h.keeps
  fresh := h.fresh
  frame := hf.trans h.frame
  ref := hr.trans h.ref
  swapInitOk := hs.trans h.swapInitOk
  checkMm := hc.trans h.checkMm
  oom := ho ▸ h.oom

/-- A block of the heap has been given out. -/
structure NewBlock {A : PhysSys} (m m' : Mem A) (ptr : Nat) : Prop where
  fresh : ¬ A.live m.phys ptr
  live : ∀ p, A.live m'.phys p ↔ A.live m.phys p ∨ p = ptr

/-- `vma_create`: a new area in a new block, or a failure. -/
theorem vmaCreate_spec (h : Paged m role) (hv : m.vmaCreate start stop flags = (r, m')) :
    ∃ role', HeapTook m m' role role' ∧ m'.mms = m.mms ∧ m'.spaces = m.spaces ∧
      (r = none ∧ m.oom < m'.oom ∧ A.live m'.phys = A.live m.phys ∨
        ∃ ptr, r = some ⟨ptr, start, stop, flags⟩ ∧ NewBlock m m' ptr ∧ m'.oom = m.oom) := by
  unfold Mem.vmaCreate at hv
  cases hk : A.kmalloc m.phys with
  | mk r₁ s =>
    rw [hk] at hv
    obtain ⟨role', ht⟩ := h.kmalloc hk
    cases r₁ with
    | none =>
      cases hv
      refine ⟨role', ?_, rfl, rfl, .inl ⟨rfl, Nat.lt_succ_self _, ?_⟩⟩
      · obtain ⟨hp, h₂, h₃, h₄, h₅, h₆, h₇, h₈⟩ := ht
        exact ⟨⟨hp.tables, hp.free, hp.pool, hp.unused⟩, h₂, h₃, h₄, h₅, h₆, h₇, Nat.le_succ_of_le h₈⟩
      · funext p
        have hl := A.kmalloc_live (p := p) hk
        show A.live s p = A.live m.phys p
        simpa using hl
    | some ptr =>
      cases hv
      refine ⟨role', ht, rfl, rfl, .inr ⟨ptr, rfl, ⟨A.kmalloc_fresh hk, fun p => ?_⟩, rfl⟩⟩
      have hl := A.kmalloc_live (p := p) hk
      show A.live s p ↔ _
      simpa [eq_comm] using hl

/-- `find_vma` changes the cache of the address space at most. -/
theorem findVma_cases (h : m.findVma (some mm) addr = (r, m')) :
    m' = m ∨ ∃ c, m' = m.setMm mm { m.mms mm with mmapCache := c } := by
  unfold Mem.findVma at h
  dsimp only at h
  split at h
  · cases h
    exact .inr ⟨_, rfl⟩
  · cases h
    exact .inl rfl

/-- The cached area is one of the areas. -/
def CacheIn (x : MmStruct) : Prop := ∀ vma, x.mmapCache = some vma → vma ∈ x.mmapList

/-- What `find_vma` finds is an area at the address. -/
theorem findVma_some (hc : CacheIn (m.mms mm)) (h : m.findVma (some mm) addr = (r, m')) :
    CacheIn (m'.mms mm) ∧ (m'.mms mm).mmapList = (m.mms mm).mmapList ∧
      ∀ vma, r = some vma → vma ∈ (m.mms mm).mmapList ∧ vma.Covers addr := by
  unfold Mem.findVma at h
  dsimp only at h
  split at h
  · rename_i vma hv
    cases h
    have hvma : vma ∈ (m.mms mm).mmapList ∧ vma.Covers addr := by
      rcases Option.or_eq_some_iff.1 hv with hv | ⟨-, hv⟩
      · obtain ⟨hv, hcov⟩ := Option.filter_eq_some_iff.1 hv
        exact ⟨hc vma hv, of_decide_eq_true hcov⟩
      · have hcov := List.find?_some hv
        exact ⟨List.mem_of_find?_eq_some hv, of_decide_eq_true hcov⟩
    refine ⟨fun w hw => ?_, by rw [setMm_self], fun w hw => ?_⟩
    · rw [setMm_self] at hw ⊢
      cases hw
      exact hvma.1
    · cases hw
      exact hvma
  · cases h
    refine ⟨hc, rfl, fun w hw => ?_⟩
    cases hw

/-- The flags that `do_pgfault` gives a page of the area. -/
def Vma.faultPerm (vma : Vma) : BitVec 32 :=
  if vma.vmFlags &&& vmWrite ≠ 0 then pteU ||| readWrite else pteU

theorem permBits_faultPerm (vma : Vma) : PermBits vma.faultPerm := by
  unfold Vma.faultPerm
  split <;> decide

/-- The ways through `do_pgfault`, up to the branch for an entry that is in use. -/
theorem doPgfault_cases (h : m.doPgfault (some mm) addr = some (ret, m')) :
    ∃ r m₁, m.findVma (some mm) addr = (r, m₁) ∧ (ret = -eInval ∧ m' = m₁ ∨
      ∃ vma d slot m₂, r = some vma ∧ vma.vmStart ≤ addr ∧ (m₁.mms mm).pgdir = some d ∧
        m₁.getPte d (roundDown addr pgSize) true = some (slot, m₂) ∧
        (slot = none ∧ ret = -eNoMem ∧ m' = m₂ ∨ ∃ pt i, slot = some (pt, i) ∧ (m₂.frame pt i ≠ 0 ∨
          ∃ p, m₂.pgdirAllocPage d (roundDown addr pgSize) vma.faultPerm = some (p, m')))) := by
  unfold Mem.doPgfault at h
  cases hf : m.findVma (some mm) addr with
  | mk r m₁ =>
    refine ⟨r, m₁, rfl, ?_⟩
    rw [hf] at h
    cases r with
    | none =>
      cases h
      exact .inl ⟨rfl, rfl⟩
    | some vma =>
      dsimp only at h
      split at h
      · cases h
        exact .inl ⟨rfl, rfl⟩
      · rename_i hle
        rw [Option.bind_eq_bind, Option.bind_some] at h
        obtain ⟨d, hd, h⟩ := Option.bind_eq_some_iff.1 h
        obtain ⟨⟨slot, m₂⟩, hg, h⟩ := Option.bind_eq_some_iff.1 h
        refine .inr ⟨vma, d, slot, m₂, rfl, Nat.not_lt.1 hle, hd, hg, ?_⟩
        cases slot with
        | none =>
          cases h
          exact .inl ⟨rfl, rfl, rfl⟩
        | some x =>
          obtain ⟨pt, i⟩ := x
          refine .inr ⟨pt, i, rfl, ?_⟩
          dsimp only at h
          split at h
          · obtain ⟨⟨p, m₃⟩, ha, h⟩ := Option.bind_eq_some_iff.1 h
            refine .inr ⟨p, ?_⟩
            cases p <;> cases h <;> exact ha
          · rename_i hne
            exact .inl hne

/-- Where the area was put, and what the assertions have checked. -/
theorem insertVmaStruct_spec (h : m.insertVmaStruct mm vma = some m') :
    ∃ pre post, (m.mms mm).mmapList = pre ++ post ∧ vma.vmStart < vma.vmEnd ∧
      (∀ prev ∈ pre.getLast?, prev.vmEnd ≤ vma.vmStart) ∧ (∀ next ∈ post.head?, vma.vmEnd ≤ next.vmStart) ∧
      m' = m.setMm mm { m.mms mm with
        mmapList := pre ++ vma :: post
        mapCount := (m.mms mm).mapCount + 1 } := by
  unfold Mem.insertVmaStruct at h
  dsimp only at h
  split at h
  · rename_i hc
    cases h
    exact ⟨_, _, List.takeWhile_append_dropWhile.symm, hc.1, fun w hw => (hc.2.1 w hw).2.1,
      fun w hw => (hc.2.2 w hw).2.1, rfl⟩
  · cases h

/-- An area that ends before all others goes to the front. -/
theorem insertVmaStruct_front (hlt : vma.vmStart < vma.vmEnd)
    (hl : ∀ w ∈ (m.mms mm).mmapList, vma.vmEnd ≤ w.vmStart ∧ w.vmStart < w.vmEnd) :
    m.insertVmaStruct mm vma = some (m.setMm mm { m.mms mm with
      mmapList := vma :: (m.mms mm).mmapList
      mapCount := (m.mms mm).mapCount + 1 }) := by
  unfold Mem.insertVmaStruct
  cases hlist : (m.mms mm).mmapList with
  | nil => simp [hlt]
  | cons w l =>
    have hw := hl w (by rw [hlist]; exact List.mem_cons_self ..)
    have hlate : ¬ w.vmStart ≤ vma.vmStart := by omega
    simp [hlate, hlt, CheckVmaOverlap, hw]

theorem VmaList.nil : VmaList [] := ⟨nofun, .nil⟩

theorem VmaList.pos (h : VmaList l) (hv : vma ∈ l) : vma.vmStart < vma.vmEnd := (h.page vma hv).2.2.2.1

theorem VmaList.inOrder (h : VmaList l) : InOrder Vma.vmStart Vma.vmEnd l := ⟨fun _ hv => h.pos hv, h.sorted⟩

theorem VmaList.of_append_right (h : VmaList (l ++ l')) : VmaList l' :=
  ⟨fun vma hv => h.page vma (List.mem_append_right _ hv), (List.pairwise_append.1 h.sorted).2.1⟩

/-- Put an area between others that leave room for it. -/
theorem VmaList.insert (h : VmaList (pre ++ post))
    (hp : vma.vmStart % pgSize = 0 ∧ vma.vmEnd % pgSize = 0 ∧ UserAccess vma.vmStart vma.vmEnd)
    (hpre : ∀ prev ∈ pre.getLast?, prev.vmEnd ≤ vma.vmStart)
    (hpost : ∀ next ∈ post.head?, vma.vmEnd ≤ next.vmStart) : VmaList (pre ++ vma :: post) := by
  constructor
  · intro w hw
    rcases List.mem_append.1 hw with hw | hw
    · exact h.page w (List.mem_append_left _ hw)
    · cases hw with
      | head => exact hp
      | tail _ hw => exact h.page w (List.mem_append_right _ hw)
  · have hin := h.inOrder.insert hp.2.2.2.1 hpre hpost
    exact hin.sorted

end

end UCore
