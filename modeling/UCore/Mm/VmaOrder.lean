import Mathlib.Data.List.TakeWhile
import UCore.Mm.FramePool
import UCore.Mm.VmmSpec

namespace UCore
set_option autoImplicit true
open Function (update)

/-- The two areas have no address in common. -/
def Vma.Disjoint (v w : Vma) : Prop := ∀ addr, ¬ (v.Covers addr ∧ w.Covers addr)

/-- The areas are not empty and pairwise disjoint, and the list is sorted by `vm_start`. -/
structure VmaSorted (l : List Vma) : Prop where
  pos : ∀ vma ∈ l, vma.vmStart < vma.vmEnd
  sorted : l.Pairwise fun v w => v.vmStart ≤ w.vmStart
  disjoint : l.Pairwise Vma.Disjoint

/-- The area has been put into the list of an address space. -/
def VmaAdded (vma : Vma) (x y : MmStruct) : Prop :=
  ∃ pre post, x.mmapList = pre ++ post ∧
    y = { x with
      mmapList := pre ++ vma :: post
      mapCount := x.mapCount + 1 }

theorem Vma.disjoint_iff {v w : Vma} (hv : v.vmStart < v.vmEnd) (hw : w.vmStart < w.vmEnd) :
    v.Disjoint w ↔ Clear Vma.vmStart Vma.vmEnd v w := (clear_iff hv hw).symm

theorem vmaSorted_iff : VmaSorted l ↔ InOrder Vma.vmStart Vma.vmEnd l := by
  rw [inOrder_iff]
  constructor
  · rintro ⟨hpos, hs, hd⟩
    exact ⟨hpos, hs, hd.imp_of_mem fun hv hw h => (Vma.disjoint_iff (hpos _ hv) (hpos _ hw)).1 h⟩
  · rintro ⟨hpos, hs, hc⟩
    exact ⟨hpos, hs, hc.imp_of_mem fun hv hw h => (Vma.disjoint_iff (hpos _ hv) (hpos _ hw)).2 h⟩

theorem VmaSorted.inOrder (h : VmaSorted l) : InOrder Vma.vmStart Vma.vmEnd l := vmaSorted_iff.1 h

section
variable {A : PhysSys} {m m' : Mem A} {vma : Vma}

theorem VmaAdded.perm (h : VmaAdded vma x y) : y.mmapList.Perm (vma :: x.mmapList) := by
  obtain ⟨pre, post, hl, rfl⟩ := h
  rw [hl]
  exact List.perm_middle

theorem VmaAdded.length (h : VmaAdded vma x y) : y.mmapList.length = x.mmapList.length + 1 := by
  rw [h.perm.length_eq, List.length_cons]

theorem VmaAdded.mapCount (h : VmaAdded vma x y) : y.mapCount = x.mapCount + 1 := by
  obtain ⟨pre, post, -, rfl⟩ := h
  rfl

/-- The assertions of `insert_vma_struct` about the neighbours of the area. -/
theorem checkNeighbours_iff (h : InOrder Vma.vmStart Vma.vmEnd (pre ++ post)) (hv : vma.vmStart < vma.vmEnd) :
    ((∀ prev ∈ pre.getLast?, CheckVmaOverlap prev vma) ∧ ∀ next ∈ post.head?, CheckVmaOverlap vma next) ↔
      (∀ prev ∈ pre.getLast?, prev.vmEnd ≤ vma.vmStart) ∧ ∀ next ∈ post.head?, vma.vmEnd ≤ next.vmStart := by
  refine and_congr (forall₂_congr fun w hw => ?_) (forall₂_congr fun w hw => ?_)
  · have hpos := h.pos w (List.mem_append_left _ (List.mem_of_mem_getLast? hw))
    exact ⟨fun hc => hc.2.1, fun hc => ⟨hpos, hc, hv⟩⟩
  · have hpos := h.pos w (List.mem_append_right _ (List.mem_of_mem_head? hw))
    exact ⟨fun hc => hc.2.1, fun hc => ⟨hv, hc, hpos⟩⟩

/-- `insert_vma_struct` returns exactly if the area is not empty and clear of all areas of the list. -/
theorem insertVmaStruct_iff (h : InOrder Vma.vmStart Vma.vmEnd (m.mms mm).mmapList) :
    (m.insertVmaStruct mm vma).isSome ↔
      vma.vmStart < vma.vmEnd ∧ ∀ w ∈ (m.mms mm).mmapList, Clear Vma.vmStart Vma.vmEnd w vma := by
  unfold Mem.insertVmaStruct
  generalize hl : (m.mms mm).mmapList = l at *
  have happ : l.takeWhile (fun w => w.vmStart ≤ vma.vmStart) ++ l.dropWhile (fun w => w.vmStart ≤ vma.vmStart) = l :=
    List.takeWhile_append_dropWhile
  have hpre (w : Vma) (hw : w ∈ l.takeWhile fun w => w.vmStart ≤ vma.vmStart) : w.vmStart ≤ vma.vmStart := by
    have hle := List.mem_takeWhile_imp hw
    exact of_decide_eq_true hle
  have hpost (w : Vma) (hw : w ∈ (l.dropWhile fun w => w.vmStart ≤ vma.vmStart).head?) : vma.vmStart < w.vmStart := by
    have hno := List.head?_dropWhile_not (fun w : Vma => decide (w.vmStart ≤ vma.vmStart)) l
    rw [Option.mem_def.1 hw] at hno
    exact Nat.not_le.1 (of_decide_eq_false hno)
  generalize l.takeWhile (fun w => w.vmStart ≤ vma.vmStart) = pre at *
  generalize l.dropWhile (fun w => w.vmStart ≤ vma.vmStart) = post at *
  subst happ
  by_cases hv : vma.vmStart < vma.vmEnd
  · rw [and_iff_right hv, ← h.neighbours hv hpre hpost, ← checkNeighbours_iff h hv]
    dsimp only
    split
    · rename_i hc
      exact iff_of_true rfl hc.2
    · rename_i hc
      exact iff_of_false nofun fun hc' => hc ⟨hv, hc'⟩
  · rw [if_neg fun hc => hv hc.1]
    exact iff_of_false nofun fun hc => hv hc.1

theorem insertVmaStruct_added (h : InOrder Vma.vmStart Vma.vmEnd (m.mms mm).mmapList)
    (hr : m.insertVmaStruct mm vma = some m') : m' = m.setMm mm (m'.mms mm) ∧
      VmaAdded vma (m.mms mm) (m'.mms mm) ∧ InOrder Vma.vmStart Vma.vmEnd (m'.mms mm).mmapList := by
  obtain ⟨pre, post, hl, hv, hpre, hpost, rfl⟩ := insertVmaStruct_spec hr
  rw [setMm_self]
  refine ⟨rfl, ⟨pre, post, hl, rfl⟩, ?_⟩
  rw [hl] at h
  exact h.insert hv hpre hpost

variable (m) in
/-- One area after the other is put into the list. -/
def Mem.insertVmas (mm : Nat) (vmas : List Vma) : Option (Mem A) :=
  vmas.foldlM (fun m vma => m.insertVmaStruct mm vma) m

theorem insertVmas_added (h : InOrder Vma.vmStart Vma.vmEnd (m.mms mm).mmapList)
    (hc : (m.mms mm).mapCount = (m.mms mm).mmapList.length) (hr : m.insertVmas mm vmas = some m') :
    (m'.mms mm).mmapList.Perm (vmas ++ (m.mms mm).mmapList) ∧ InOrder Vma.vmStart Vma.vmEnd (m'.mms mm).mmapList ∧
      (m'.mms mm).mapCount = (m'.mms mm).mmapList.length := by
  induction vmas generalizing m with
  | nil =>
    cases hr
    exact ⟨.refl _, h, hc⟩
  | cons vma vmas ih =>
    obtain ⟨m₁, h₁, hr⟩ := Option.bind_eq_some_iff.1 hr
    obtain ⟨-, hadd, hin⟩ := insertVmaStruct_added h h₁
    have hcount : (m₁.mms mm).mapCount = (m₁.mms mm).mmapList.length := by
      rw [hadd.mapCount, hadd.length, hc, Nat.cast_succ]
    obtain ⟨hperm, hin', hcount'⟩ := ih hin hcount hr
    refine ⟨hperm.trans ?_, hin', hcount'⟩
    exact (hadd.perm.append_left vmas).trans List.perm_middle

/-- Into a list that is sorted and disjoint, `insert_vma_struct` puts exactly the areas that are not empty and
disjoint from all others, and leaves it sorted and disjoint, also one after the other in any order. -/
theorem insert_vma_sorted (h : VmaSorted (m.mms mm).mmapList) (vma : Vma) :
    ((m.insertVmaStruct mm vma).isSome ↔
      vma.vmStart < vma.vmEnd ∧ ∀ w ∈ (m.mms mm).mmapList, vma.Disjoint w) ∧
    (∀ m', m.insertVmaStruct mm vma = some m' → m' = m.setMm mm (m'.mms mm) ∧ VmaAdded vma (m.mms mm) (m'.mms mm) ∧
      VmaSorted (m'.mms mm).mmapList) ∧
    ((m.mms mm).mapCount = (m.mms mm).mmapList.length → ∀ vmas m', m.insertVmas mm vmas = some m' →
      (m'.mms mm).mmapList.Perm (vmas ++ (m.mms mm).mmapList) ∧ VmaSorted (m'.mms mm).mmapList ∧
        (m'.mms mm).mapCount = (m'.mms mm).mmapList.length) := by
  refine ⟨?_, fun m' hr => ?_, fun hc vmas m' hr => ?_⟩
  · rw [insertVmaStruct_iff h.inOrder]
    refine and_congr_right fun hv => forall₂_congr fun w hw => ?_
    rw [Vma.disjoint_iff hv (h.pos w hw)]
    exact ⟨Clear.symm, Clear.symm⟩
  · obtain ⟨hm, hadd, hin⟩ := insertVmaStruct_added h.inOrder hr
    exact ⟨hm, hadd, vmaSorted_iff.2 hin⟩
  · obtain ⟨hperm, hin, hcount⟩ := insertVmas_added h.inOrder hc hr
    exact ⟨hperm, vmaSorted_iff.2 hin, hcount⟩

end

/-- The areas 5 to 6 and 1 to 3 in an address space without areas. -/
theorem insert_vma_sorted_pool : ∃ m : Mem framePool, poolMem.insertVmas 1 [⟨8, 5, 6, 1⟩, ⟨9, 1, 3, 1⟩] = some m ∧
    (m.mms 1).mmapList.map Vma.vmStart = [1, 5] ∧ VmaSorted (m.mms 1).mmapList ∧ (m.mms 1).mapCount = 2 := by
  have hrun : (poolMem.insertVmas 1 [⟨8, 5, 6, 1⟩, ⟨9, 1, 3, 1⟩]).map (fun m => (m.mms 1).mmapList.map Vma.vmStart) =
      some [1, 5] := by
    decide
  obtain ⟨m, hm, hl⟩ := Option.map_eq_some_iff.1 hrun
  have hempty : VmaSorted (poolMem.mms 1).mmapList := ⟨nofun, .nil, .nil⟩
  obtain ⟨-, hsorted, hcount⟩ := (insert_vma_sorted hempty ⟨8, 5, 6, 1⟩).2.2 rfl _ m hm
  have hlen : (m.mms 1).mmapList.length = 2 := by
    rw [← List.length_map (f := Vma.vmStart), hl]
    rfl
  refine ⟨m, hm, hl, hsorted, ?_⟩
  rw [hcount, hlen]
  rfl

end UCore
