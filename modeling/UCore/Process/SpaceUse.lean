import UCore.Lib.Owners
import UCore.Process.PagingSys
import UCore.Process.View

namespace UCore
set_option autoImplicit true
open Function (update)

/-- The two kernels have the same memory, the same address spaces for all processes, and the same zombies. -/
structure SameUse {S : MemSys} (k k' : Kernel S) : Prop where
  mem : k'.mem = k.mem
  mm : k'.mm = k.mm
  cr3 : k'.cr3 = k.cr3
  zombie : ∀ p, k'.state p = .zombie ↔ k.state p = .zombie
  current : k'.current = k.current

section
variable {S : MemSys} {k k' k'' : Kernel S}

theorem wakeupProc_zombie (h : k.wakeupProc p = some k') (q : Nat) : k'.state q = .zombie ↔ k.state q = .zombie := by
  unfold Kernel.wakeupProc at h
  split at h
  · cases h
  · rename_i hz
    split at h
    · cases h
      show update k.state p .runnable q = .zombie ↔ _
      by_cases hq : q = p
      · rw [hq, Function.update_self]
        exact iff_of_false nofun hz
      · rw [Function.update_of_ne hq]
    · cases h
      rfl

namespace SameUse

theorem refl (k : Kernel S) : SameUse k k := ⟨rfl, rfl, rfl, fun _ => Iff.rfl, rfl⟩

theorem trans (h : SameUse k k') (h' : SameUse k' k'') : SameUse k k'' where
  mem := h'.mem.trans h.mem
  mm := h'.mm.trans h.mm
  cr3 := h'.cr3.trans h.cr3
  zombie p := (h'.zombie p).trans (h.zombie p)
  current := h'.current.trans h.current

theorem wakeupProc (h : k.wakeupProc p = some k') : SameUse k k' := by
  obtain ⟨-, -, -, hmm, hcr, hmem⟩ := Relinked.wakeupProc h
  refine ⟨hmem, hmm, hcr, wakeupProc_zombie h, ?_⟩
  unfold Kernel.wakeupProc at h
  split at h
  · cases h
  · split at h
    · cases h
      rfl
    · cases h
      rfl

theorem wake (c : Prop) [Decidable c] (h : (if c then k.wakeupProc p else some k) = some k') : SameUse k k' := by
  split at h
  · exact wakeupProc h
  · cases h
    exact .refl k

theorem getPid (h : k.getPid = some (pid, k')) : SameUse k k' := by
  unfold Kernel.getPid at h
  dsimp only at h
  split at h
  · obtain ⟨x, -, h⟩ := Option.bind_eq_some_iff.1 h
    cases h
    exact ⟨rfl, rfl, rfl, fun _ => Iff.rfl, rfl⟩
  · cases h
    exact ⟨rfl, rfl, rfl, fun _ => Iff.rfl, rfl⟩

theorem setLinks (h : k.setLinks p = some k') : SameUse k k' := by
  cases hq : k.parent p with
  | none => simp [Kernel.setLinks, Kernel.setYptr, hq] at h
  | some q =>
    rw [setLinks_eq hq] at h
    cases h
    exact ⟨rfl, rfl, rfl, fun _ => Iff.rfl, rfl⟩

theorem removeLinks (h : k.removeLinks p = some k') : SameUse k k' := by
  unfold Kernel.removeLinks at h
  dsimp only at h
  split at h
  · cases h
    split <;> exact ⟨rfl, rfl, rfl, fun _ => Iff.rfl, rfl⟩
  · obtain ⟨k₁, hp, h⟩ := Option.bind_eq_some_iff.1 h
    obtain ⟨q, -, hp⟩ := Option.map_eq_some_iff.1 hp
    cases hp
    cases h
    split <;> exact ⟨rfl, rfl, rfl, fun _ => Iff.rfl, rfl⟩

theorem reparent (h : k.reparent n = some k') : SameUse k k' :=
  reparent_keeps SameUse .refl (fun _ _ _ => .trans) (fun _ _ _ _ _ => ⟨rfl, rfl, rfl, fun _ => Iff.rfl, rfl⟩)
    (fun _ _ _ => .wakeupProc) h

end SameUse

end

namespace Kernel
variable {A : PhysSys} {bs : Nat}

def kmem (k : Kernel (pagingSys A bs)) : KMem A := k.mem
def procs (k : Kernel (pagingSys A bs)) : Finset Nat := k.kmem.procs
def spaces (k : Kernel (pagingSys A bs)) : List Nat := k.kmem.mem.spaces
def torn (k : Kernel (pagingSys A bs)) : List Nat := k.kmem.torn
def mmStruct (k : Kernel (pagingSys A bs)) (x : Nat) : MmStruct := k.kmem.mem.mms x

/-- The page directory in `cr3` is that of the address space, which exists, or `boot_pgdir` without one. -/
def cr3Valid (k : Kernel (pagingSys A bs)) (p : Nat) : Prop :=
  match k.mm p with
  | none => k.cr3 p = A.bootPgdir * pgSize
  | some x => x ∈ k.spaces ∧ ∃ d, (k.mmStruct x).pgdir = some d ∧ k.cr3 p = d * pgSize

end Kernel

/-- The processes are the users of the `mm_struct`s, and their `cr3` is valid as long as they are no zombies. With
`left`, the current process has just left its address space. -/
structure SpaceInv {A : PhysSys} {bs : Nat} (k : Kernel (pagingSys A bs)) (left : Prop) : Prop where
  owners : Owners k.procs k.mm k.spaces fun x => (k.mmStruct x).mmCount
  gone : ∀ p ∈ k.procs, k.state p = .zombie → k.mm p = none
  cr3 : ∀ p ∈ k.procs, k.state p ≠ .zombie → (left → p ≠ k.current) → k.cr3Valid p

/-- The areas and the page directory of an `mm_struct`. -/
def MmStruct.map (x : MmStruct) : List Vma × Option Nat := (x.mmapList, x.pgdir)

theorem MmStruct.map_eq {x y : MmStruct} (h : x.fixed = y.fixed) : x.map = y.map := congrArg (fun r => (r.1, r.2.1)) h

/-- The `mm_struct`s `t` have been torn down, and the others are still there. -/
structure Tears {A : PhysSys} {bs : Nat} (k k' : Kernel (pagingSys A bs)) (t : List Nat) : Prop where
  torn : k'.torn = t ++ k.torn
  kept : ∀ x ∈ k.spaces, x ∉ t → x ∈ k'.spaces ∧ (k'.mmStruct x).map = (k.mmStruct x).map

/-- What concerns the address spaces has not changed between the two kernels. -/
structure Calm {A : PhysSys} {bs : Nat} (k k' : Kernel (pagingSys A bs)) : Prop where
  blocks : SameBlocks k.kmem k'.kmem
  mm : k'.mm = k.mm
  cr3 : k'.cr3 = k.cr3
  zombie : ∀ p, k'.state p = .zombie ↔ k.state p = .zombie
  current : k'.current = k.current

section
variable {A : PhysSys} {bs : Nat} {k k' k'' : Kernel (pagingSys A bs)} {left : Prop} {m : KMem A}

namespace Tears

theorem refl (k : Kernel (pagingSys A bs)) : Tears k k [] := ⟨rfl, fun _ hx _ => ⟨hx, rfl⟩⟩

theorem trans (h : Tears k k' t) (h' : Tears k' k'' t') : Tears k k'' (t' ++ t) where
  torn := by rw [h'.torn, h.torn, List.append_assoc]
  kept x hx hn := by
    rw [List.mem_append, not_or] at hn
    obtain ⟨hx', hd⟩ := h.kept x hx hn.2
    obtain ⟨hx'', hd'⟩ := h'.kept x hx' hn.1
    exact ⟨hx'', hd'.trans hd⟩

end Tears

/-- What is used has not changed, apart from the caches of the areas. -/
theorem SpaceInv.congr (h : SpaceInv k left) (hp : k'.procs = k.procs) (hs : k'.spaces = k.spaces)
    (hx : ∀ x ∈ k.spaces, (k'.mmStruct x).fixed = (k.mmStruct x).fixed) (hm : k'.mm = k.mm) (hc : k'.cr3 = k.cr3)
    (hz : ∀ p, k'.state p = .zombie ↔ k.state p = .zombie) (hcur : left → k'.current = k.current) :
    SpaceInv k' left where
  owners := by
    rw [hp, hs]
    exact h.owners.congr (fun p _ => congrFun hm p) fun x hm => congrArg (fun r => r.2.2) (hx x hm)
  gone p hp' hz' := by
    rw [hm]
    exact h.gone p (hp ▸ hp') ((hz p).1 hz')
  cr3 p hp' hz' hl := by
    have hv := h.cr3 p (hp ▸ hp') (mt (hz p).2 hz') fun hleft => hcur hleft ▸ hl hleft
    unfold Kernel.cr3Valid at hv ⊢
    rw [hm, hc]
    cases hmm : k.mm p with
    | none =>
      rw [hmm] at hv
      exact hv
    | some x =>
      rw [hmm] at hv
      obtain ⟨hxs, d, hd, hcr⟩ := hv
      refine ⟨hs ▸ hxs, d, ?_, hcr⟩
      rw [← hd]
      exact congrArg (fun r => r.2.1) (hx x hxs)

theorem SameBlocks.refl (m : KMem A) : SameBlocks m m := ⟨.refl _, rfl, rfl⟩

namespace Calm

theorem refl (k : Kernel (pagingSys A bs)) : Calm k k := ⟨.refl _, rfl, rfl, fun _ => Iff.rfl, rfl⟩

theorem trans (h : Calm k k') (h' : Calm k' k'') : Calm k k'' where
  blocks := ⟨h.blocks.same.trans h'.blocks.same, h'.blocks.procs.trans h.blocks.procs,
    h'.blocks.torn.trans h.blocks.torn⟩
  mm := h'.mm.trans h.mm
  cr3 := h'.cr3.trans h.cr3
  zombie p := (h'.zombie p).trans (h.zombie p)
  current := h'.current.trans h.current

theorem tears (h : Calm k k') : Tears k k' [] := by
  refine ⟨h.blocks.torn, fun x hx _ => ⟨?_, MmStruct.map_eq (h.blocks.same.fixed x)⟩⟩
  rwa [show k'.spaces = k.spaces from h.blocks.same.spaces]

theorem inv (h : Calm k k') (hk : SpaceInv k left) : SpaceInv k' left :=
  hk.congr h.blocks.procs h.blocks.same.spaces (fun x _ => h.blocks.same.fixed x) h.mm h.cr3 h.zombie fun _ => h.current

theorem setMem (h : SameBlocks k.kmem m) : Calm k (k.setMem m) := ⟨h, rfl, rfl, fun _ => Iff.rfl, rfl⟩

theorem of_same (h : SameUse k k') : Calm k k' := by
  refine ⟨?_, h.mm, h.cr3, h.zombie, h.current⟩
  rw [show k'.kmem = k.kmem from h.mem]
  exact .refl _

theorem setupKstack (h : k.setupKstack p = (b, k')) : Calm k k' := by
  unfold Kernel.setupKstack at h
  split at h
  · rename_i m hm
    cases h
    exact setMem (SameBlocks.allocKstack hm)
  · rename_i a m hm
    cases h
    exact ⟨SameBlocks.allocKstack hm, rfl, rfl, fun _ => Iff.rfl, rfl⟩

theorem putKstack (h : k.putKstack p = some k') : Calm k k' := by
  obtain ⟨m, hm, rfl⟩ := Option.map_eq_some_iff.1 h
  exact setMem (SameBlocks.freeKstack hm)

end Calm

/-- A new process has no address space yet. -/
theorem SpaceInv.allocProc (h : SpaceInv k False) (ha : k.allocProc = (some p, k')) : SpaceInv k' False ∧
    p ∉ k.procs ∧ k'.procs = insert p k.procs ∧ k'.mm p = none ∧ k'.state p = .uninit ∧
    k'.current = k.current ∧ Tears k k' [] := by
  obtain ⟨m, hm, hmem, hmm, hcr, hst, hcur⟩ : ∃ m, KMem.kmallocProc k.kmem = (some p, m) ∧ k'.kmem = m ∧
      k'.mm = update k.mm p none ∧ k'.cr3 = update k.cr3 p (A.bootPgdir * pgSize) ∧
      k'.state = update k.state p .uninit ∧ k'.current = k.current := by
    unfold Kernel.allocProc at ha
    split at ha
    · cases ha
    · rename_i q m hm
      cases ha
      exact ⟨m, hm, rfl, rfl, rfl, rfl, rfl⟩
  obtain ⟨hfresh, hprocs, htorn, hmms, hspaces⟩ := kmallocProc_some hm
  rw [← hmem] at hprocs htorn hmms hspaces
  have hprocs : k'.procs = insert p k.procs := hprocs
  have hspaces : k'.spaces = k.spaces := hspaces
  have hstruct (x : Nat) : k'.mmStruct x = k.mmStruct x := congrFun hmms x
  have hold (q : Nat) (hq : q ∈ k.procs) : q ≠ p := by
    rintro rfl
    exact hfresh hq
  have hself : k'.mm p = none := by rw [hmm, Function.update_self]
  refine ⟨⟨?_, fun q hq hz => ?_, fun q hq hz _ => ?_⟩, hfresh, hprocs, hself,
    by rw [hst, Function.update_self], hcur, ⟨htorn, fun x hx _ => ⟨hspaces ▸ hx, congrArg MmStruct.map (hstruct x)⟩⟩⟩
  · have ho : Owners k.procs k'.mm k.spaces fun x => (k'.mmStruct x).mmCount := by
      refine h.owners.congr (fun q hq => ?_) fun x _ => ?_
      · rw [hmm, Function.update_of_ne (hold q hq)]
      · rw [hstruct]
    rw [hspaces]
    refine ho.idle fun q hq => ?_
    rw [hprocs, Finset.mem_insert]
    refine or_iff_right ?_
    rintro rfl
    exact hq hself
  · by_cases hqp : q = p
    · rw [hqp, hself]
    · have hq := Finset.mem_of_mem_insert_of_ne (hprocs ▸ hq) hqp
      rw [hst, Function.update_of_ne hqp] at hz
      rw [hmm, Function.update_of_ne hqp]
      exact h.gone q hq hz
  · unfold Kernel.cr3Valid
    by_cases hqp : q = p
    · rw [hqp, hself, hcr, Function.update_self]
    · have hq := Finset.mem_of_mem_insert_of_ne (hprocs ▸ hq) hqp
      rw [hst, Function.update_of_ne hqp] at hz
      have hv := h.cr3 q hq hz False.elim
      unfold Kernel.cr3Valid at hv
      rw [hmm, hcr, Function.update_of_ne hqp, Function.update_of_ne hqp, hspaces]
      simp only [hstruct]
      exact hv

/-- A process without an address space goes away. -/
theorem SpaceInv.kfreeProc (h : SpaceInv k False) (hp : k.mm p = none) : SpaceInv (k.kfreeProc p) False ∧
    (k.kfreeProc p).procs = k.procs.erase p ∧ Tears k (k.kfreeProc p) [] := by
  by_cases hmem : p ∈ k.procs
  · obtain ⟨hprocs, htorn, hmms, hspaces⟩ := kfreeProc_some hmem
    have hprocs : (k.kfreeProc p).procs = k.procs.erase p := hprocs
    have hspaces : (k.kfreeProc p).spaces = k.spaces := hspaces
    have hstruct (x : Nat) : (k.kfreeProc p).mmStruct x = k.mmStruct x := congrFun hmms x
    refine ⟨⟨?_, fun q hq hz => ?_, fun q hq hz _ => ?_⟩, hprocs,
      ⟨htorn, fun x hx _ => ⟨hspaces ▸ hx, congrArg MmStruct.map (hstruct x)⟩⟩⟩
    · have ho : Owners k.procs k.mm k.spaces fun x => ((k.kfreeProc p).mmStruct x).mmCount :=
        h.owners.congr (fun _ _ => rfl) fun x _ => by rw [hstruct]
      rw [hspaces]
      refine ho.idle fun q hq => ?_
      rw [hprocs, Finset.mem_erase]
      refine and_iff_right ?_
      rintro rfl
      exact hq hp
    · rw [hprocs] at hq
      exact h.gone q (Finset.mem_of_mem_erase hq) hz
    · rw [hprocs] at hq
      have hv := h.cr3 q (Finset.mem_of_mem_erase hq) hz False.elim
      unfold Kernel.cr3Valid at hv ⊢
      rw [hspaces]
      simp only [hstruct]
      exact hv
  · have hk : k.kfreeProc p = k := by
      have hm : KMem.kfreeProc k.kmem p = k.kmem := dif_neg hmem
      exact congrArg k.setMem hm
    rw [hk, Finset.erase_eq_of_notMem hmem]
    exact ⟨h, rfl, .refl k⟩

/-- A process without an address space gets one. -/
theorem SpaceInv.give (h : SpaceInv k left) (hz : k.state p ≠ .zombie)
    (hleft : left → p = k.current) (ho : Owners k.procs (update k.mm p (some x)) k'.spaces fun y => (k'.mmStruct y).mmCount)
    (hmm : k'.mm = update k.mm p (some x)) (hcr : k'.cr3 = update k.cr3 p (d * pgSize)) (hp : k'.procs = k.procs)
    (hst : k'.state = k.state) (hx : x ∈ k'.spaces) (hd : (k'.mmStruct x).pgdir = some d) (ht : Tears k k' []) :
    SpaceInv k' False := by
  refine ⟨?_, fun q hq hqz => ?_, fun q hq hqz _ => ?_⟩
  · rw [hp, hmm]
    exact ho
  · rw [hp] at hq
    rw [hst] at hqz
    by_cases hqp : q = p
    · rw [hqp] at hqz
      exact absurd hqz hz
    · rw [hmm, Function.update_of_ne hqp]
      exact h.gone q hq hqz
  · rw [hp] at hq
    rw [hst] at hqz
    unfold Kernel.cr3Valid
    rw [hmm, hcr]
    by_cases hqp : q = p
    · rw [hqp, Function.update_self, Function.update_self]
      exact ⟨hx, d, hd, rfl⟩
    · rw [Function.update_of_ne hqp, Function.update_of_ne hqp]
      have hv := h.cr3 q hq hqz fun hl => hleft hl ▸ hqp
      unfold Kernel.cr3Valid at hv
      cases hmq : k.mm q with
      | none =>
        rw [hmq] at hv
        exact hv
      | some y =>
        rw [hmq] at hv
        obtain ⟨hy, e, he, hcq⟩ := hv
        obtain ⟨hy', hsame⟩ := ht.kept y hy List.not_mem_nil
        exact ⟨hy', e, (congrArg Prod.snd hsame).trans he, hcq⟩

/-- A new address space for a process without one. -/
theorem SpaceInv.take (h : SpaceInv k left) (hp : p ∈ k.procs) (hno : k.mm p = none) (hz : k.state p ≠ .zombie)
    (hleft : left → p = k.current) (hc : Created k.procs 0 (some (x, cr)) k.kmem.mem m.mem)
    (hprocs : m.procs = k.procs) (htorn : m.torn = k.torn)
    (hm : k'.kmem = m) (hmm : k'.mm = update k.mm p (some x)) (hcr : k'.cr3 = update k.cr3 p cr)
    (hst : k'.state = k.state) : SpaceInv k' False ∧ Tears k k' [] := by
  obtain ⟨y, d, hnew, hfresh, hspaces, hone, hd⟩ := hc.done rfl
  obtain ⟨rfl, rfl⟩ := Prod.mk.inj (Option.some.inj hnew)
  rw [← hm] at hprocs htorn
  have hspaces' : k'.spaces = x :: k.spaces := by
    rw [← hm] at hspaces
    exact hspaces
  have hstruct (z : Nat) : k'.mmStruct z = m.mem.mms z := by
    rw [← hm]
    rfl
  have ht : Tears k k' [] := by
    refine ⟨htorn, fun z hz _ => ⟨?_, ?_⟩⟩
    · rw [hspaces']
      exact List.mem_cons_of_mem _ hz
    · rw [hstruct]
      exact MmStruct.map_eq (hc.old z hz)
  refine ⟨h.give hz hleft ?_ hmm hcr hprocs hst ?_ ?_ ht, ht⟩
  · rw [hspaces']
    refine h.owners.take hp hno hfresh ?_ fun z hz => ?_
    · rw [hstruct, hone]
    · rw [hstruct]
      exact congrArg (fun r => r.2.2) (hc.old z hz)
  · rw [hspaces']
    exact List.mem_cons_self ..
  · rw [hstruct, hd]

/-- `copy_mm` for a new process. -/
theorem SpaceInv.copyMm (h : SpaceInv k False) (hp : p ∈ k.procs) (hno : k.mm p = none) (hz : k.state p ≠ .zombie)
    (hcur : k.current ∈ k.procs) (hc : k.copyMm fl p = some (e, k')) : SpaceInv k' False ∧ k'.procs = k.procs ∧
    (e ≠ 0 → k'.mm p = none) ∧ Tears k k' [] := by
  obtain ⟨new, m, hm, hnone, hsome⟩ : ∃ new m, k.kmem.copyMm fl (k.mm k.current) = some ((e, new), m) ∧
      (new = none → k' = k.setMem m) ∧ ∀ x cr, new = some (x, cr) →
        k' = { k with mem := m, mm := update k.mm p (some x), cr3 := update k.cr3 p cr } := by
    unfold Kernel.copyMm at hc
    split at hc
    · cases hc
    · rename_i ret m hm
      cases hc
      obtain ⟨⟨⟨ret', new⟩, m'⟩, hr, he⟩ := Option.map_eq_some_iff.1 hm
      cases he
      exact ⟨none, _, hr, fun _ => rfl, nofun⟩
    · rename_i ret x cr m hm
      cases hc
      obtain ⟨⟨⟨ret', new⟩, m'⟩, hr, he⟩ := Option.map_eq_some_iff.1 hm
      cases he
      refine ⟨some (x, cr), _, hr, nofun, fun y cr' hy => ?_⟩
      cases hy
      rfl
  obtain ⟨hc, hprocs, htorn⟩ := copyMm_eq hm
  have hkeep (hn : new = none) (hs : m.mem.spaces = k.spaces)
      (hx : ∀ x ∈ k.spaces, (m.mem.mms x).fixed = (k.mmStruct x).fixed) :
      SpaceInv k' False ∧ k'.procs = k.procs ∧ (e ≠ 0 → k'.mm p = none) ∧ Tears k k' [] := by
    obtain rfl := hnone hn
    refine ⟨h.congr hprocs hs hx rfl rfl (fun _ => Iff.rfl) fun _ => rfl, hprocs, fun _ => hno, htorn, fun x hm _ => ?_⟩
    rw [show (k.setMem m).spaces = k.spaces from hs]
    exact ⟨hm, MmStruct.map_eq (hx x hm)⟩
  cases ho : k.mm k.current with
  | none =>
    rw [ho] at hc
    obtain ⟨-, hc⟩ := Prod.mk.inj (Option.some.inj hc)
    obtain ⟨hn, hmem⟩ := Prod.mk.inj hc
    refine hkeep hn.symm ?_ fun x _ => ?_
    · rw [← hmem]
      rfl
    · rw [← hmem]
      rfl
  | some old =>
    rw [ho] at hc
    by_cases hv : fl &&& cloneVm = 0
    · have hcr := copyMm_created k.kmem.ok hv hc
      by_cases he : e = 0
      · subst he
        obtain ⟨x, d, rfl, -⟩ := hcr.done rfl
        have hk := hsome x (d * pgSize) rfl
        have hboth : SpaceInv k' False ∧ Tears k k' [] := by
          rw [hk]
          exact h.take hp hno hz False.elim hcr hprocs htorn rfl rfl rfl rfl
        refine ⟨hboth.1, ?_, fun hc => absurd rfl hc, hboth.2⟩
        rw [hk]
        exact hprocs
      · obtain ⟨hn, hs⟩ := hcr.fail he
        exact hkeep hn hs hcr.old
    · rw [Mem.copyMm, if_pos hv] at hc
      obtain ⟨-, rfl, hinc, d, hd, rfl⟩ := goodMm_shared k.kmem.ok hc
      have hk := hsome old (d * pgSize) rfl
      have hold : old ∈ k.spaces := h.owners.mem _ hcur old ho
      have hprocs' : k'.procs = k.procs := by
        rw [hk]
        exact hprocs
      have hmem : k'.kmem.mem = k.kmem.mem.mmCountInc old := by
        rw [hk]
        exact hinc
      have hspaces : k'.spaces = k.spaces := (congrArg Mem.spaces hmem).trans rfl
      have hself : (k'.mmStruct old).fixed = _ := (congrArg (fun m => (m.mms old).fixed) hmem).trans (mmCountInc_self ..)
      have hother (x : Nat) (hx : x ≠ old) : k'.mmStruct x = k.mmStruct x :=
        (congrArg (fun m => m.mms x) hmem).trans (mmCountInc_other _ hx)
      have hpg (x : Nat) : (k'.mmStruct x).map = (k.mmStruct x).map := by
        by_cases hx : x = old
        · rw [hx]
          exact congrArg (fun r => (r.1, r.2.1)) hself
        · rw [hother x hx]
      have ht : Tears k k' [] := by
        refine ⟨?_, fun x hx _ => ⟨hspaces ▸ hx, hpg x⟩⟩
        rw [hk]
        exact htorn
      have hown := h.owners.share hp hno hold
      refine ⟨h.give hz False.elim ?_ (by rw [hk]) (by rw [hk]) hprocs' (by rw [hk]) (hspaces ▸ hold)
        ((congrArg Prod.snd (hpg old)).trans hd) ht, hprocs', fun hc => absurd rfl hc, ht⟩
      rw [hspaces]
      refine hown.congr (fun _ _ => rfl) fun x _ => ?_
      by_cases hx : x = old
      · rw [hx, Function.update_self]
        exact congrArg (fun r => r.2.2) hself
      · rw [Function.update_of_ne hx, hother x hx]

theorem SpaceInv.weaken (h : SpaceInv k False) : SpaceInv k left :=
  ⟨h.owners, h.gone, fun p hp hz _ => h.cr3 p hp hz False.elim⟩

/-- The processes that are left when the current one has left its address space. -/
theorem SpaceInv.leave (h : SpaceInv k False) (hprocs : k'.procs = k.procs)
    (ho : Owners k.procs (update k.mm k.current none) k'.spaces fun x => (k'.mmStruct x).mmCount)
    (hmm : k'.mm = update k.mm k.current none) (hcr : k'.cr3 = k.cr3) (hst : k'.state = k.state)
    (hcur : k'.current = k.current)
    (hkept : ∀ x ∈ k.spaces, x ∈ k'.spaces → (k'.mmStruct x).map = (k.mmStruct x).map) : SpaceInv k' True where
  owners := by
    rw [hprocs, hmm]
    exact ho
  gone p hp hz := by
    rw [hmm]
    by_cases hpc : p = k.current
    · rw [hpc, Function.update_self]
    · rw [Function.update_of_ne hpc]
      exact h.gone p (hprocs ▸ hp) (hst ▸ hz)
  cr3 p hp hz hl := by
    have hpc : p ≠ k.current := hcur ▸ hl trivial
    rw [hprocs] at hp
    rw [hst] at hz
    have hv := h.cr3 p hp hz False.elim
    unfold Kernel.cr3Valid at hv ⊢
    rw [hmm, hcr, Function.update_of_ne hpc]
    cases hmp : k.mm p with
    | none =>
      rw [hmp] at hv
      exact hv
    | some y =>
      rw [hmp] at hv
      obtain ⟨hy, d, hd, hc⟩ := hv
      have hy' := ho.mem p hp y (by rw [Function.update_of_ne hpc, hmp])
      exact ⟨hy', d, (congrArg Prod.snd (hkept y hy hy')).trans hd, hc⟩

/-- The current process leaves its address space, which its last user takes down. -/
theorem SpaceInv.exitMm (h : SpaceInv k False) (hcur : k.current ∈ k.procs) (he : k.exitMm = some k') :
    SpaceInv k' True ∧ k'.procs = k.procs ∧ k'.mm k.current = none ∧ k'.state = k.state ∧ k'.current = k.current ∧
    ∃ t, Tears k k' t ∧ t.Nodup ∧
      ∀ x, x ∈ t ↔ k.mm k.current = some x ∧ ∀ p ∈ k.procs, p ≠ k.current → k.mm p ≠ some x := by
  unfold Kernel.exitMm at he
  cases hmm : k.mm k.current with
  | none =>
    rw [hmm] at he
    cases he
    exact ⟨h.weaken, rfl, hmm, rfl, rfl, [], .refl k, .nil, fun x => iff_of_false List.not_mem_nil fun hc => nomatch hc.1⟩
  | some x =>
    rw [hmm] at he
    obtain ⟨m, hd, he⟩ := Option.bind_eq_some_iff.1 he
    obtain ⟨hx, hdrop, hprocs, htorn⟩ := dropMm_eq hd
    have hk := (Option.some.inj he).symm
    have hprocs' : k'.procs = k.procs := by
      rw [hk]
      exact hprocs
    have hself : k'.mm k.current = none := by
      rw [hk]
      exact Function.update_self ..
    have hstruct (y : Nat) : k'.mmStruct y = m.mem.mms y := by
      rw [hk]
      rfl
    have hspaces : k'.spaces = m.mem.spaces := by
      rw [hk]
      rfl
    have htorn' : k'.torn = m.torn := by
      rw [hk]
      rfl
    obtain ⟨-, ⟨hmore, hdec⟩ | ⟨hone, herase, hfixed⟩⟩ := dropMm_cases k.kmem.ok hx hdrop
    · have hsame : m.mem.spaces = k.spaces := (congrArg Mem.spaces hdec).trans rfl
      have hx' : x ∈ m.mem.spaces := hsame ▸ hx
      have hfix : (m.mem.mms x).fixed = _ := (congrArg (fun m => (m.mms x).fixed) hdec).trans (mmCountDec_self ..)
      have hother (y : Nat) (hy : y ≠ x) : m.mem.mms y = k.mmStruct y :=
        (congrArg (fun m => m.mms y) hdec).trans (mmCountDec_other _ hy)
      have hpg (y : Nat) : (k'.mmStruct y).map = (k.mmStruct y).map := by
        rw [hstruct]
        by_cases hy : y = x
        · rw [hy]
          exact congrArg (fun r => (r.1, r.2.1)) hfix
        · rw [hother y hy]
      have hown : Owners k.procs (update k.mm k.current none) k.spaces fun y => (k'.mmStruct y).mmCount := by
        refine (h.owners.leave hcur hmm hmore).congr (fun _ _ => rfl) fun y _ => ?_
        rw [hstruct]
        by_cases hy : y = x
        · rw [hy, Function.update_self]
          exact congrArg (fun r => r.2.2) hfix
        · rw [Function.update_of_ne hy, hother y hy]
      rw [← hsame, ← hspaces] at hown
      refine ⟨h.leave hprocs' hown (by rw [hk]) (by rw [hk]) (by rw [hk]) (by rw [hk]) fun y _ _ => hpg y, hprocs',
        hself, by rw [hk], by rw [hk], [], ⟨?_, fun y hy _ => ⟨?_, hpg y⟩⟩, .nil, fun y => iff_of_false List.not_mem_nil ?_⟩
      · rw [htorn', htorn, if_pos hx']
        rfl
      · rw [hspaces, hsame]
        exact hy
      · rintro ⟨hxy, hno⟩
        obtain rfl := Option.some.inj hxy
        obtain ⟨p, hp, hpx⟩ := hown.used x (hspaces ▸ hx')
        by_cases hpc : p = k.current
        · rw [hpc, Function.update_self] at hpx
          cases hpx
        · rw [Function.update_of_ne hpc] at hpx
          exact hno p hp hpc hpx
    · have hnodup := h.owners.nodup
      have hgone : x ∉ m.mem.spaces := by
        rw [herase]
        exact fun hc => (hnodup.mem_erase_iff.1 hc).1 rfl
      have hcount (y : Nat) (hy : y ≠ x) : (k'.mmStruct y).fixed = (k.mmStruct y).fixed := by
        rw [hstruct]
        exact hfixed y hy
      have hown : Owners k.procs (update k.mm k.current none) (k.spaces.erase x) fun y => (k'.mmStruct y).mmCount :=
        h.owners.drop hcur hmm hone fun y _ hy => congrArg (fun r => r.2.2) (hcount y hy)
      have hsp : k'.spaces = k.spaces.erase x := hspaces.trans herase
      rw [← hsp] at hown
      have hpg (y : Nat) (hy : y ∈ k'.spaces) : (k'.mmStruct y).map = (k.mmStruct y).map := by
        rw [hsp, hnodup.mem_erase_iff] at hy
        exact MmStruct.map_eq (hcount y hy.1)
      refine ⟨h.leave hprocs' hown (by rw [hk]) (by rw [hk]) (by rw [hk]) (by rw [hk]) fun y _ => hpg y, hprocs',
        hself, by rw [hk], by rw [hk], [x], ⟨?_, fun y hy hn => ?_⟩, List.nodup_singleton x, fun y => ?_⟩
      · rw [htorn', htorn, if_neg hgone]
        rfl
      · have hy' : y ∈ k'.spaces := by
          rw [hsp, hnodup.mem_erase_iff]
          exact ⟨fun hc => hn (List.mem_singleton.2 hc), hy⟩
        exact ⟨hy', hpg y hy'⟩
      · rw [List.mem_singleton, Option.some.injEq, eq_comm]
        refine ⟨fun hxy => ⟨hxy, fun p hp hpc hpy => ?_⟩, And.left⟩
        have hm := hown.mem p hp y (by rw [Function.update_of_ne hpc, hpy])
        rw [hsp, hnodup.mem_erase_iff] at hm
        exact hm.1 hxy.symm

end

end UCore
