import UCore.Mm.Spaces

namespace UCore
set_option autoImplicit true
open Function (update)

/-- The `mm_struct`s, the areas in their lists and the `proc_struct`s `procs` lie in different blocks of the heap,
all in use. -/
structure HeapOk {A : PhysSys} (m : Mem A) (procs : Finset Nat) : Prop where
  nodup : m.spaces.Nodup
  proc : ∀ p ∈ procs, A.live m.phys p
  space : ∀ mm ∈ m.spaces, A.live m.phys mm ∧ mm ∉ procs
  areas : ∀ mm ∈ m.spaces, ∀ v ∈ (m.mms mm).mmapList, A.live m.phys v.ptr ∧ v.ptr ∉ procs ∧ v.ptr ∉ m.spaces
  apart : ∀ mm ∈ m.spaces, ∀ mm' ∈ m.spaces, mm ≠ mm' → ∀ v ∈ (m.mms mm).mmapList,
    ∀ w ∈ (m.mms mm').mmapList, v.ptr ≠ w.ptr
  tidy : ∀ mm ∈ m.spaces, VmaTidy (m.mms mm)

theorem HeapOk.noSpaces {A : PhysSys} {m : Mem A} (h : m.spaces = []) : HeapOk m ∅ := by
  refine ⟨h ▸ .nil, nofun, ?_, ?_, ?_, ?_⟩ <;> rw [h] <;> exact nofun

/-- The `mm_struct` may have got areas in new blocks and a page directory, and nothing else has changed for the
`mm_struct`s. -/
structure MmGrows {A : PhysSys} (mm : Nat) (m m' : Mem A) : Prop where
  spaces : m'.spaces = m.spaces
  other : ∀ x ≠ mm, (m'.mms x).fixed = (m.mms x).fixed
  mmCount : (m'.mms mm).mmCount = (m.mms mm).mmCount
  live : ∀ q, A.live m.phys q → A.live m'.phys q
  areas : ∀ v ∈ (m'.mms mm).mmapList, v ∈ (m.mms mm).mmapList ∨ ¬ A.live m.phys v.ptr ∧ A.live m'.phys v.ptr
  tidy : ∀ x, VmaTidy (m.mms x) → VmaTidy (m'.mms x)

section
variable {A : PhysSys} {m m' m'' : Mem A} {procs : Finset Nat} {l : List Vma}

theorem SameSpaces.kmallocNone (hk : A.kmalloc m.phys = (none, s)) : SameSpaces m (m.setPhys s).fail := by
  refine ⟨fun _ => rfl, rfl, funext fun q => propext ?_, fun _ ht => ht⟩
  exact (A.kmalloc_live hk).trans (or_iff_left (Option.some_ne_none q).symm)

theorem SameSpaces.grows (h : SameSpaces m m') (mm : Nat) : MmGrows mm m m' where
  spaces := h.spaces
  other x _ := h.fixed x
  mmCount := h.mmCount mm
  live q hq := by rwa [h.live]
  areas v hv := .inl (by rwa [← h.mmapList mm])
  tidy := h.tidy

namespace MmGrows

theorem refl (mm : Nat) (m : Mem A) : MmGrows mm m m := (SameSpaces.refl m).grows mm

theorem trans (h : MmGrows mm m m') (h' : MmGrows mm m' m'') : MmGrows mm m m'' where
  spaces := h'.spaces.trans h.spaces
  other x hx := (h'.other x hx).trans (h.other x hx)
  mmCount := h'.mmCount.trans h.mmCount
  live q hq := h'.live q (h.live q hq)
  areas v hv := by
    rcases h'.areas v hv with hv | ⟨hno, hv⟩
    · rcases h.areas v hv with hv | ⟨hno, hv⟩
      · exact .inl hv
      · exact .inr ⟨hno, h'.live _ hv⟩
    · exact .inr ⟨fun hc => hno (h.live _ hc), hv⟩
  tidy x ht := h'.tidy x (h.tidy x ht)

theorem setPgdir (m : Mem A) (mm : Nat) (d : Option Nat) : MmGrows mm m (m.setMm mm { m.mms mm with pgdir := d }) where
  spaces := rfl
  other x hx := by rw [show (m.setMm mm _).mms x = m.mms x from Function.update_of_ne hx ..]
  mmCount := by rw [setMm_self]
  live _ hq := hq
  areas v hv := by
    rw [setMm_self] at hv
    exact .inl hv
  tidy x ht := by
    by_cases hx : x = mm
    · rw [hx] at ht ⊢
      rw [setMm_self]
      exact ⟨ht.inOrder, ht.cache⟩
    · rwa [show (m.setMm mm _).mms x = m.mms x from Function.update_of_ne hx ..]

theorem setupPgdir (h : m.setupPgdir mm = some (ok, m')) : MmGrows mm m m' := by
  obtain ⟨⟨x, m₁⟩, ha, h⟩ := Option.bind_eq_some_iff.1 h
  have h₁ := (SameSpaces.allocPages ha).grows mm
  cases x with
  | none =>
    cases h
    exact h₁
  | some page =>
    obtain ⟨d, -, h⟩ := Option.bind_eq_some_iff.1 h
    cases h
    exact (h₁.trans ((SameVars.setFrame ..).sameSpaces.grows mm)).trans (.setPgdir ..)

theorem vmaCreate_none (h : m.vmaCreate start stop flags = (none, m')) : SameSpaces m m' := by
  unfold Mem.vmaCreate at h
  split at h
  · cases h
  · rename_i s hk
    cases h
    exact .kmallocNone hk

/-- A new area, put into the list. -/
theorem vmaCreate (h : m.vmaCreate start stop flags = (some vma, m₁)) (hi : m₁.insertVmaStruct mm vma = some m') :
    MmGrows mm m m' := by
  unfold Mem.vmaCreate at h
  cases hk : A.kmalloc m.phys with
  | mk r s =>
    rw [hk] at h
    cases r with
    | none => cases h
    | some ptr =>
      cases h
      obtain ⟨pre, post, hl, -, -, -, rfl⟩ := insertVmaStruct_spec hi
      have hl : (m.mms mm).mmapList = pre ++ post := hl
      have hlive (q : Nat) : A.live s q ↔ A.live m.phys q ∨ q = ptr := by
        rw [A.kmalloc_live hk, Option.some.injEq, eq_comm (a := q)]
      refine ⟨rfl, fun x hx => ?_, by rw [setMm_self]; rfl, fun q hq => (hlive q).2 (.inl hq), fun v hv => ?_,
        fun x ht => ?_⟩
      · exact congrArg MmStruct.fixed (Function.update_of_ne hx ..)
      · rw [setMm_self] at hv
        rw [hl]
        rcases List.mem_append.1 hv with hv | hv
        · exact .inl (List.mem_append_left _ hv)
        · cases hv with
          | head => exact .inr ⟨A.kmalloc_fresh hk, (hlive _).2 (.inr rfl)⟩
          | tail _ hv => exact .inl (List.mem_append_right _ hv)
      · by_cases hx : x = mm
        · rw [hx] at ht ⊢
          exact VmaTidy.insert (m := m.setPhys s) ht hi
        · rwa [show (((m.setPhys s).setMm mm _).mms x) = m.mms x from Function.update_of_ne hx ..]

theorem mmMap (h : m.mmMap mm addr len flags = some (ret, m')) : MmGrows mm m m' := by
  unfold Mem.mmMap at h
  dsimp only at h
  split at h
  · cases h
    exact .refl ..
  · cases hf : m.findVma (some mm) (roundDown addr pgSize) with
    | mk found m₁ =>
      rw [hf] at h
      dsimp only at h
      refine ((SameSpaces.findVma hf).grows mm).trans ?_
      split at h
      · cases h
        exact .refl ..
      · split at h
        · rename_i m₂ hv
          cases h
          exact (vmaCreate_none hv).grows mm
        · rename_i vma m₂ hv
          obtain ⟨m₃, hi, he⟩ := Option.map_eq_some_iff.1 h
          cases he
          exact vmaCreate hv hi

theorem dupVmas (h : m.dupVmas mm c d l = some (ret, m')) : MmGrows mm m m' := by
  induction l generalizing m with
  | nil =>
    cases h
    exact .refl ..
  | cons vma l ih =>
    rw [Mem.dupVmas] at h
    split at h
    · rename_i m₁ hv
      cases h
      exact (vmaCreate_none hv).grows mm
    · rename_i nvma m₁ hv
      obtain ⟨m₂, hi, h⟩ := Option.bind_eq_some_iff.1 h
      obtain ⟨⟨ok, m₃⟩, hc, h⟩ := Option.bind_eq_some_iff.1 h
      have h₃ := (vmaCreate hv hi).trans ((SameSpaces.copyRange hc).grows mm)
      cases ok with
      | false =>
        cases h
        exact h₃
      | true => exact h₃.trans (ih h)

theorem dupMmap (h : m.dupMmap mm fromMm = some (ret, m')) : MmGrows mm m m' := by
  obtain ⟨d, -, h⟩ := Option.bind_eq_some_iff.1 h
  obtain ⟨c, -, h⟩ := Option.bind_eq_some_iff.1 h
  exact dupVmas h

end MmGrows

namespace HeapOk

theorem grows (h : HeapOk m procs) (hg : MmGrows mm m m') : HeapOk m' procs := by
  have hlist (x : Nat) (hx : x ≠ mm) : (m'.mms x).mmapList = (m.mms x).mmapList := congrArg Prod.fst (hg.other x hx)
  have hcases (x : Nat) (v : Vma) (hv : v ∈ (m'.mms x).mmapList) : v ∈ (m.mms x).mmapList ∨
      x = mm ∧ ¬ A.live m.phys v.ptr ∧ A.live m'.phys v.ptr := by
    by_cases hx : x = mm
    · subst hx
      exact (hg.areas v hv).imp_right fun hv => ⟨rfl, hv⟩
    · rw [hlist x hx] at hv
      exact .inl hv
  refine ⟨hg.spaces ▸ h.nodup, fun p hp => hg.live p (h.proc p hp), fun x hx => ?_, fun x hx v hv => ?_,
    fun x hx y hy hxy v hv w hw => ?_, fun x hx => hg.tidy x (h.tidy x (hg.spaces ▸ hx))⟩
  · rw [hg.spaces] at hx
    exact ⟨hg.live x (h.space x hx).1, (h.space x hx).2⟩
  · rw [hg.spaces] at hx ⊢
    rcases hcases x v hv with hv | ⟨-, hno, hv⟩
    · obtain ⟨hl, hp, hs⟩ := h.areas x hx v hv
      exact ⟨hg.live _ hl, hp, hs⟩
    · exact ⟨hv, fun hc => hno (h.proc _ hc), fun hc => hno (h.space _ hc).1⟩
  · rw [hg.spaces] at hx hy
    intro he
    rcases hcases x v hv with hv | ⟨rfl, hno, -⟩
    · rcases hcases y w hw with hw | ⟨-, hno, -⟩
      · exact h.apart x hx y hy hxy v hv w hw he
      · rw [← he] at hno
        exact hno (h.areas x hx v hv).1
    · rcases hcases y w hw with hw | ⟨rfl, -, -⟩
      · rw [he] at hno
        exact hno (h.areas y hy w hw).1
      · exact hxy rfl

theorem same (h : HeapOk m procs) (hs : SameSpaces m m') : HeapOk m' procs := h.grows (hs.grows 0)

theorem mmCreate_none (h : m.mmCreate = (none, m')) : SameSpaces m m' := by
  unfold Mem.mmCreate at h
  split at h
  · cases h
  · rename_i s hk
    cases h
    exact .kmallocNone hk

/-- A new `mm_struct`. -/
theorem mmCreate (h : HeapOk m procs) (hc : m.mmCreate = (some mm, m')) : HeapOk m' procs ∧ mm ∉ m.spaces ∧
    m'.spaces = mm :: m.spaces ∧ (m'.mms mm).fixed = ([], none, 0) ∧ ∀ x ≠ mm, (m'.mms x).fixed = (m.mms x).fixed := by
  obtain ⟨hlist₀, hcache₀, -⟩ := mmCreate_empty hc
  unfold Mem.mmCreate at hc
  split at hc
  · rename_i ptr s hk
    have hfresh := A.kmalloc_fresh hk
    have hlive (q : Nat) : A.live s q ↔ A.live m.phys q ∨ q = ptr := by
      rw [A.kmalloc_live hk, Option.some.injEq, eq_comm (a := q)]
    obtain ⟨rfl, hspaces, hphys, hself, hother⟩ : ptr = mm ∧ m'.spaces = ptr :: m.spaces ∧ m'.phys = s ∧
        (m'.mms ptr).fixed = ([], none, 0) ∧ ∀ x ≠ ptr, m'.mms x = m.mms x := by
      cases hc
      split
      · refine ⟨rfl, rfl, rfl, ?_, fun x hx => ?_⟩
        · simp [Mem.swapInitMm, Mem.setMm, MmStruct.fixed]
        · simp [Mem.swapInitMm, Mem.setMm, Mem.setPhys, Function.update_of_ne hx]
      · refine ⟨rfl, rfl, rfl, ?_, fun x hx => ?_⟩
        · simp [Mem.setMm, MmStruct.fixed]
        · simp [Mem.setMm, Mem.setPhys, Function.update_of_ne hx]
    have hne (x : Nat) (hx : x ∈ m.spaces) : x ≠ ptr := by
      rintro rfl
      exact hfresh (h.space x hx).1
    have hlist (x : Nat) (hx : x ∈ m'.spaces) (v : Vma) (hv : v ∈ (m'.mms x).mmapList) :
        x ∈ m.spaces ∧ v ∈ (m.mms x).mmapList := by
      rw [hspaces] at hx
      by_cases hxp : x = ptr
      · rw [hxp, hlist₀] at hv
        cases hv
      · rw [hother x hxp] at hv
        exact ⟨(List.mem_cons.1 hx).resolve_left hxp, hv⟩
    refine ⟨⟨?_, fun p hp => ?_, fun x hx => ?_, fun x hx v hv => ?_, fun x hx y hy hxy v hv w hw => ?_,
      fun x hx => ?_⟩, fun hp => hne ptr hp rfl, hspaces, hself, fun x hx => by rw [hother x hx]⟩
    · rw [hspaces]
      exact List.nodup_cons.2 ⟨fun hp => hne ptr hp rfl, h.nodup⟩
    · rw [hphys]
      exact (hlive p).2 (.inl (h.proc p hp))
    · rw [hspaces] at hx
      rw [hphys]
      cases hx with
      | head => exact ⟨(hlive _).2 (.inr rfl), fun hp => hfresh (h.proc _ hp)⟩
      | tail _ hx => exact ⟨(hlive x).2 (.inl (h.space x hx).1), (h.space x hx).2⟩
    · obtain ⟨hx, hv⟩ := hlist x hx v hv
      obtain ⟨hl, hp, hs⟩ := h.areas x hx v hv
      rw [hphys, hspaces]
      refine ⟨(hlive _).2 (.inl hl), hp, fun hc => ?_⟩
      rcases List.mem_cons.1 hc with hc | hc
      · rw [hc] at hl
        exact hfresh hl
      · exact hs hc
    · obtain ⟨hx, hv⟩ := hlist x hx v hv
      obtain ⟨hy, hw⟩ := hlist y hy w hw
      exact h.apart x hx y hy hxy v hv w hw
    · by_cases hxp : x = ptr
      · rw [hxp]
        exact .empty hlist₀ hcache₀
      · rw [hspaces] at hx
        rw [hother x hxp]
        exact h.tidy x ((List.mem_cons.1 hx).resolve_left hxp)
  · cases hc

theorem live_kfrees (l : List Vma) (m : Mem A) :
    (∀ q, A.live (l.foldl (fun m vma => m.kfree vma.ptr) m).phys q ↔ A.live m.phys q ∧ ∀ v ∈ l, q ≠ v.ptr) ∧
      (l.foldl (fun m vma => m.kfree vma.ptr) m).mms = m.mms ∧
      (l.foldl (fun m vma => m.kfree vma.ptr) m).spaces = m.spaces := by
  induction l generalizing m with
  | nil => simp
  | cons v l ih =>
    obtain ⟨hl, hm, hs⟩ := ih (m.kfree v.ptr)
    refine ⟨fun q => ?_, hm, hs⟩
    rw [List.foldl_cons, hl q, show A.live (m.kfree v.ptr).phys q ↔ _ from A.kfree_live, and_assoc]
    simp

/-- The blocks of an `mm_struct` and its areas are given back. -/
theorem mmDestroy (h : HeapOk m procs) (hm : mm ∈ m.spaces) (hd : m.mmDestroy mm = some m') : HeapOk m' procs ∧
    (m.mms mm).mmCount = 0 ∧ m'.spaces = m.spaces.erase mm ∧ m'.mms = m.mms := by
  unfold Mem.mmDestroy at hd
  split at hd
  · rename_i hz
    cases hd
    obtain ⟨hlive, hmms, hspaces⟩ := live_kfrees (m.mms mm).mmapList m
    generalize (m.mms mm).mmapList.foldl (fun m vma => m.kfree vma.ptr) m = m₁ at *
    have hl (q : Nat) : A.live (m₁.kfree mm).phys q ↔ (A.live m.phys q ∧ ∀ v ∈ (m.mms mm).mmapList, q ≠ v.ptr) ∧ q ≠ mm := by
      rw [← hlive]
      exact A.kfree_live
    have hmem (x : Nat) : x ∈ m.spaces.erase mm ↔ x ≠ mm ∧ x ∈ m.spaces := h.nodup.mem_erase_iff
    have herase : ({ m₁.kfree mm with spaces := (m₁.kfree mm).spaces.erase mm } : Mem A).spaces = m.spaces.erase mm := by
      rw [← hspaces]
      rfl
    have hmms' : ({ m₁.kfree mm with spaces := (m₁.kfree mm).spaces.erase mm } : Mem A).mms = m.mms := hmms
    refine ⟨⟨?_, fun p hp => ?_, fun x hx => ?_, fun x hx v hv => ?_, fun x hx y hy hxy v hv w hw => ?_,
      fun x hx => ?_⟩, hz, herase, hmms'⟩
    · rw [herase]
      exact h.nodup.erase mm
    · refine (hl p).2 ⟨⟨h.proc p hp, fun v hv => ?_⟩, ?_⟩
      · rintro rfl
        exact (h.areas mm hm v hv).2.1 hp
      · rintro rfl
        exact (h.space p hm).2 hp
    · rw [herase] at hx
      obtain ⟨hne, hx⟩ := (hmem x).1 hx
      refine ⟨(hl x).2 ⟨⟨(h.space x hx).1, fun v hv => ?_⟩, hne⟩, (h.space x hx).2⟩
      rintro rfl
      exact (h.areas mm hm v hv).2.2 hx
    · rw [herase] at hx ⊢
      rw [hmms'] at hv
      obtain ⟨hne, hx⟩ := (hmem x).1 hx
      obtain ⟨hlv, hp, hs⟩ := h.areas x hx v hv
      refine ⟨(hl _).2 ⟨⟨hlv, fun w hw => h.apart x hx mm hm hne v hv w hw⟩, ?_⟩, hp, fun hc => hs ((hmem _).1 hc).2⟩
      rintro rfl
      exact hs hm
    · rw [herase] at hx hy
      rw [hmms'] at hv hw
      exact h.apart x ((hmem x).1 hx).2 y ((hmem y).1 hy).2 hxy v hv w hw
    · rw [herase] at hx
      rw [hmms']
      exact h.tidy x ((hmem x).1 hx).2
  · cases hd

/-- A new `proc_struct`. -/
theorem kmallocProc (h : HeapOk m procs) (hk : A.kmalloc m.phys = (some p, s)) :
    HeapOk (m.setPhys s) (insert p procs) ∧ p ∉ procs := by
  have hfresh := A.kmalloc_fresh hk
  have hlive (q : Nat) : A.live s q ↔ A.live m.phys q ∨ q = p := by
    rw [A.kmalloc_live hk, Option.some.injEq, eq_comm (a := q)]
  refine ⟨⟨h.nodup, fun q hq => ?_, fun x hx => ?_, fun x hx v hv => ?_, h.apart, h.tidy⟩, fun hp => hfresh (h.proc p hp)⟩
  · rcases Finset.mem_insert.1 hq with rfl | hq
    · exact (hlive q).2 (.inr rfl)
    · exact (hlive q).2 (.inl (h.proc q hq))
  · obtain ⟨hl, hp⟩ := h.space x hx
    refine ⟨(hlive x).2 (.inl hl), fun hc => ?_⟩
    rcases Finset.mem_insert.1 hc with rfl | hc
    · exact hfresh hl
    · exact hp hc
  · obtain ⟨hl, hp, hs⟩ := h.areas x hx v hv
    refine ⟨(hlive _).2 (.inl hl), fun hc => ?_, hs⟩
    rcases Finset.mem_insert.1 hc with hc | hc
    · rw [hc] at hl
      exact hfresh hl
    · exact hp hc

theorem kfreeProc (h : HeapOk m procs) (hp : p ∈ procs) : HeapOk (m.kfree p) (procs.erase p) := by
  have hlive (q : Nat) : A.live (m.kfree p).phys q ↔ A.live m.phys q ∧ q ≠ p := A.kfree_live
  refine ⟨h.nodup, fun q hq => ?_, fun x hx => ?_, fun x hx v hv => ?_, h.apart, h.tidy⟩
  · obtain ⟨hqp, hq⟩ := Finset.mem_erase.1 hq
    exact (hlive q).2 ⟨h.proc q hq, hqp⟩
  · obtain ⟨hl, hn⟩ := h.space x hx
    exact ⟨(hlive x).2 ⟨hl, fun hc => hn (hc ▸ hp)⟩, fun hc => hn (Finset.mem_erase.1 hc).2⟩
  · obtain ⟨hl, hn, hs⟩ := h.areas x hx v hv
    exact ⟨(hlive _).2 ⟨hl, fun hc => hn (hc ▸ hp)⟩, fun hc => hn (Finset.mem_erase.1 hc).2, hs⟩

end HeapOk

end

end UCore
