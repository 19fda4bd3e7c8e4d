import UCore.Mm.FrameRange
import UCore.Mm.MmBlocks

namespace UCore
set_option autoImplicit true
open Function (update)

/-- The areas are those of user addresses. -/
def MmStruct.Low (x : MmStruct) : Prop := ∀ v ∈ x.mmapList, v.vmEnd ≤ userTop

/-- The `mm_struct`s have their page directories, and their areas are still those of user addresses. -/
structure SameDirs {A : PhysSys} (m m' : Mem A) : Prop where
  pgdir : ∀ x, (m'.mms x).pgdir = (m.mms x).pgdir
  low : ∀ x, (m.mms x).Low → (m'.mms x).Low

section
variable {A : PhysSys} {m m' m'' : Mem A} {s : A.σ} {role role' : Nat → Role} {dirs : Finset Nat} {S S' : Nat → Prop}

namespace SameDirs

theorem of_mms (h : m'.mms = m.mms) : SameDirs m m' := ⟨fun x => by rw [h], fun x hl => by rwa [h]⟩

theorem trans (h : SameDirs m m') (h' : SameDirs m' m'') : SameDirs m m'' :=
  ⟨fun x => (h'.pgdir x).trans (h.pgdir x), fun x hl => h'.low x (h.low x hl)⟩

theorem of_same (h : SameSpaces m m') : SameDirs m m' := by
  refine ⟨h.pgdir, fun x hl v hv => ?_⟩
  rw [h.mmapList] at hv
  exact hl v hv

theorem insertVmaStruct (hi : m.insertVmaStruct mm vma = some m') (hu : vma.vmEnd ≤ userTop) : SameDirs m m' := by
  obtain ⟨pre, post, hl, -, -, -, rfl⟩ := insertVmaStruct_spec hi
  refine ⟨fun x => ?_, fun x hlow v hv => ?_⟩
  · by_cases hx : x = mm
    · rw [hx, setMm_self]
    · exact congrArg MmStruct.pgdir (Function.update_of_ne hx ..)
  · by_cases hx : x = mm
    · rw [hx, setMm_self] at hv
      rw [hx] at hlow
      rcases List.mem_append.1 hv with hv | hv
      · exact hlow v (by rw [hl]; exact List.mem_append_left _ hv)
      · rcases List.mem_cons.1 hv with rfl | hv
        · exact hu
        · exact hlow v (by rw [hl]; exact List.mem_append_right _ hv)
    · rw [show (m.setMm mm _).mms x = m.mms x from Function.update_of_ne hx ..] at hv
      exact hlow v hv

end SameDirs

namespace FrameUse

/-- The frames change hands between the allocator, the heap and the kernel stacks. -/
theorem retag (h : FrameUse dirs S m role) (hf : m'.frame = m.frame) (hck : m'.checkMm = m.checkMm)
    (hnode : ∀ f d p, role' f = .node d p ↔ role f = .node d p) (hleaf : ∀ f, role' f = .leaf ↔ role f = .leaf)
    (hfree : ∀ f, role' f = .free ↔ A.free m'.phys f)
    (hpool : ∀ f, role' f ≠ .other → 0x80200 ≤ f ∧ f < npage ∧ ¬ A.arena m'.phys f)
    (hunused : ∀ f, role' f = .free → m'.ref f = 0) (href : ∀ f, role f = .leaf → m'.ref f = m.ref f)
    (hboot : role' A.bootPgdir = .other ∧ ¬ S' A.bootPgdir ∧ ¬ A.arena m'.phys A.bootPgdir)
    (hheld : ∀ f, S' f → role' f = .other ∧ 0x80200 ≤ f ∧ f < npage ∧ ¬ A.arena m'.phys f) :
    FrameUse dirs S' m' role' := by
  have hmap (x : Nat × Nat) : m'.mapped x = m.mapped x := by
    rw [Mem.mapped, pteAt_of_frame hf]
    rfl
  have htables : Tables sv39 m'.frame role' := by
    rw [hf]
    refine h.paged.tables.retag hnode fun f d p i hr hp hi hv => ?_
    rw [hleaf]
    exact h.paged.tables.leaf f d p i hr hp hi hv
  refine ⟨⟨⟨htables, hfree, hpool, hunused⟩, rfl, fun d => ?_, fun _ => Iff.rfl, fun p hp => ?_⟩, hck.trans h.unchecked,
    fun x hx y hy p hxp hyp => ?_, hboot, ?_, ?_, hheld⟩
  · rw [hnode]
    exact h.root d
  · rw [hleaf] at hp
    have hcount : m'.mapCount dirs p = m.mapCount dirs p :=
      mapCount_congr (fun d _ v _ => pteAt_of_frame hf d v) p
    show m'.ref p = m'.mapCount dirs p
    rw [href p hp, hcount]
    exact h.exact p hp
  · rw [hmap] at hxp hyp
    exact h.sole x hx y hy p hxp hyp
  · rw [hf]
    exact h.bootEmpty
  · rw [hf]
    exact h.high

/-- The allocator gives frames away, or the heap takes them. -/
theorem setPhys (h : FrameUse dirs S m role) (hfree : ∀ f, A.free s f → A.free m.phys f)
    (harena : ∀ f, A.arena s f → A.free m.phys f ∨ A.arena m.phys f) : ∃ role', FrameUse dirs S (m.setPhys s) role' ∧
      ∀ f, A.free m.phys f → ¬ A.free s f → role' f = .other := by
  classical
  let role' (f : Nat) : Role := if A.free m.phys f ∧ ¬ A.free s f then .other else role f
  have htaken (f : Nat) (h₁ : A.free m.phys f) (h₂ : ¬ A.free s f) : role' f = .other := if_pos ⟨h₁, h₂⟩
  have hkeep (f : Nat) (hf : ¬ (A.free m.phys f ∧ ¬ A.free s f)) : role' f = role f := if_neg hf
  have hsame (f : Nat) (hf : role f ≠ .free) : role' f = role f := hkeep f fun hc => hf ((h.paged.free f).2 hc.1)
  have hnot (f : Nat) (hf : ¬ A.free m.phys f) (ha : ¬ A.arena m.phys f) : ¬ A.arena s f :=
    fun hc => (harena f hc).elim hf ha
  have hiff (r : Role) (h₁ : r ≠ .free) (h₂ : r ≠ .other) (f : Nat) : role' f = r ↔ role f = r := by
    by_cases hf : A.free m.phys f ∧ ¬ A.free s f
    · rw [htaken f hf.1 hf.2, (h.paged.free f).2 hf.1]
      exact iff_of_false h₂.symm h₁.symm
    · rw [hkeep f hf]
  refine ⟨role', h.retag rfl rfl (fun f d p => hiff _ (by simp) (by simp) f) (hiff _ (by simp) (by simp)) (fun f => ?_)
    (fun f hf => ?_) (fun f hf => ?_) (fun _ _ => rfl) ⟨?_, h.boot.2.1, hnot _ (fun hc => ?_) h.boot.2.2⟩ fun f hf => ?_, htaken⟩
  · show _ ↔ A.free s f
    by_cases hf : A.free m.phys f ∧ ¬ A.free s f
    · rw [htaken f hf.1 hf.2]
      exact iff_of_false nofun hf.2
    · rw [hkeep f hf, h.paged.free]
      exact ⟨fun hc => not_not.1 fun hn => hf ⟨hc, hn⟩, hfree f⟩
  · show _ ∧ _ ∧ ¬ A.arena s f
    have ho : role f ≠ .other := fun hc => hf ((hsame f (by rw [hc]; simp)).trans hc)
    obtain ⟨h₁, h₂, h₃⟩ := h.paged.pool f ho
    refine ⟨h₁, h₂, fun hc => ?_⟩
    rcases harena f hc with hm | hm
    · by_cases hs : A.free s f
      · exact A.free_arena hs hc
      · exact hf (htaken f hm hs)
    · exact h₃ hm
  · refine h.paged.unused f ?_
    by_contra hc
    rw [hsame f hc] at hf
    exact hc hf
  · rw [hsame _ (by rw [h.boot.1]; simp), h.boot.1]
  · rw [← h.paged.free, h.boot.1] at hc
    cases hc
  · obtain ⟨ho, h₁, h₂, h₃⟩ := h.held f hf
    refine ⟨(hsame f (by rw [ho]; simp)).trans ho, h₁, h₂, hnot f (fun hc => ?_) h₃⟩
    rw [← h.paged.free, ho] at hc
    cases hc

theorem kmalloc (h : FrameUse dirs S m role) (hk : A.kmalloc m.phys = (r, s)) :
    ∃ role', FrameUse dirs S (m.setPhys s) role' := by
  have hfree (f : Nat) (hf : A.free s f) : A.free m.phys f := by
    rcases (A.kmalloc_free hk).1 (.inl hf) with hc | hc
    · exact hc
    · exact absurd (A.kmalloc_arena hk hc) (A.free_arena hf)
  obtain ⟨role', h', -⟩ := h.setPhys hfree fun f hf => (A.kmalloc_free hk).1 (.inr hf)
  exact ⟨role', h'⟩

theorem kfree (h : FrameUse dirs S m role) (p : Nat) : ∃ role', FrameUse dirs S (m.kfree p) role' := by
  have hfree (f : Nat) (hf : A.free (A.kfree m.phys p) f) : A.free m.phys f := by
    rwa [A.kfree_free] at hf
  have harena (f : Nat) (hf : A.arena (A.kfree m.phys p) f) : A.free m.phys f ∨ A.arena m.phys f := by
    rw [A.kfree_arena] at hf
    exact .inr hf
  obtain ⟨role', h', -⟩ := h.setPhys hfree harena
  exact ⟨role', h'⟩

/-- `alloc_pages` of a run that becomes a kernel stack. -/
theorem allocRun (h : FrameUse dirs S m role) (ha : m.allocPages n = some (r, m')) :
    r = none ∧ FrameUse dirs S m' role ∧ m'.frame = m.frame ∨ ∃ t role', r = some t ∧ m'.frame = m.frame ∧
      FrameUse dirs (fun f => S f ∨ t ≤ f ∧ f < t + n) m' role' ∧ ∀ f, t ≤ f → f < t + n → ¬ S f := by
  rcases allocPages_plain h.plain ha with ⟨rfl, rfl⟩ | ⟨t, s, rfl, hp, rfl⟩
  · exact .inl ⟨rfl, h.fail, rfl⟩
  · have hfree (f : Nat) (hf : A.free s f) : A.free m.phys f := ((A.allocPages_free hp).1 hf).1
    have harena (f : Nat) (hf : A.arena s f) : A.free m.phys f ∨ A.arena m.phys f := by
      rw [A.allocPages_arena hp] at hf
      exact .inr hf
    have htook (f : Nat) (h₁ : t ≤ f) (h₂ : f < t + n) : A.free m.phys f := A.allocPages_some hp h₁ h₂
    have hnew (f : Nat) (h₁ : t ≤ f) (h₂ : f < t + n) : role f = .free := (h.paged.free f).2 (htook f h₁ h₂)
    obtain ⟨role', h', htaken⟩ := h.setPhys hfree harena
    refine .inr ⟨t, role', rfl, rfl, { h' with boot := ⟨h'.boot.1, ?_, h'.boot.2.2⟩, held := ?_ }, fun f h₁ h₂ hS => ?_⟩
    · rintro (hS | ⟨h₁, h₂⟩)
      · exact h.boot.2.1 hS
      · have hb := hnew _ h₁ h₂
        rw [h.boot.1] at hb
        cases hb
    · rintro f (hS | ⟨h₁, h₂⟩)
      · exact h'.held f hS
      · have hno : ¬ A.free s f := fun hc => ((A.allocPages_free hp).1 hc).2 ⟨h₁, h₂⟩
        obtain ⟨hb₁, hb₂⟩ := A.free_bound (htook f h₁ h₂)
        refine ⟨htaken f (htook f h₁ h₂) hno, hb₁, hb₂, ?_⟩
        show ¬ A.arena s f
        rw [A.allocPages_arena hp]
        exact A.free_arena (htook f h₁ h₂)
    · have hf := hnew f h₁ h₂
      rw [(h.held f hS).1] at hf
      cases hf

theorem findVma (h : FrameUse dirs S m role) (hf : m.findVma mm addr = (r, m')) :
    FrameUse dirs S m' role ∧ m'.frame = m.frame := by
  cases mm with
  | none =>
    cases hf
    exact ⟨h, rfl⟩
  | some mm =>
    rcases findVma_cases hf with rfl | ⟨c, rfl⟩
    · exact ⟨h, rfl⟩
    · exact ⟨h.setMm .., rfl⟩

theorem vmaCreate_vmEnd (hv : m.vmaCreate start stop flags = (some vma, m')) : vma.vmEnd = stop := by
  unfold Mem.vmaCreate at hv
  split at hv <;> cases hv
  rfl

theorem vmaCreate (h : FrameUse dirs S m role) (hv : m.vmaCreate start stop flags = (r, m')) :
    ∃ role', FrameUse dirs S m' role' ∧ m'.frame = m.frame ∧ m'.mms = m.mms := by
  unfold Mem.vmaCreate at hv
  split at hv
  · rename_i ptr s hk
    cases hv
    obtain ⟨role', h'⟩ := h.kmalloc hk
    exact ⟨role', h', rfl, rfl⟩
  · rename_i s hk
    cases hv
    obtain ⟨role', h'⟩ := h.kmalloc hk
    exact ⟨role', h'.fail, rfl, rfl⟩

theorem insertVmaStruct (h : FrameUse dirs S m role) (hi : m.insertVmaStruct mm vma = some m') :
    FrameUse dirs S m' role ∧ m'.frame = m.frame := by
  obtain ⟨pre, post, -, -, -, -, rfl⟩ := insertVmaStruct_spec hi
  exact ⟨h.setMm .., rfl⟩

/-- A new `mm_struct` has no areas. -/
theorem mmCreate (h : FrameUse dirs S m role) (hc : m.mmCreate = (r, m')) :
    ∃ role', FrameUse dirs S m' role' ∧ m'.frame = m.frame ∧ ∀ mm, r = some mm → (m'.mms mm).Low := by
  unfold Mem.mmCreate at hc
  split at hc
  · rename_i mm s hk
    obtain ⟨role', h'⟩ := h.kmalloc hk
    have hlow : (((m.setPhys s).setMm mm ⟨[], none, none, 0, false, 0⟩).mms mm).Low := by
      rw [setMm_self]
      exact nofun
    cases hc
    split
    · refine ⟨role', h'.congr rfl rfl rfl rfl, rfl, fun x hx => ?_⟩
      cases hx
      unfold Mem.swapInitMm
      dsimp only
      rw [Function.update_self]
      exact hlow
    · refine ⟨role', h'.congr rfl rfl rfl rfl, rfl, fun x hx => ?_⟩
      cases hx
      exact hlow
  · rename_i s hk
    cases hc
    obtain ⟨role', h'⟩ := h.kmalloc hk
    exact ⟨role', h'.fail, rfl, nofun⟩

theorem kfrees (h : FrameUse dirs S m role) (l : List Vma) :
    ∃ role', FrameUse dirs S (l.foldl (fun m vma => m.kfree vma.ptr) m) role' ∧
      (l.foldl (fun m vma => m.kfree vma.ptr) m).frame = m.frame := by
  induction l generalizing m role with
  | nil => exact ⟨role, h, rfl⟩
  | cons vma l ih =>
    obtain ⟨role₁, h₁⟩ := h.kfree vma.ptr
    obtain ⟨role', h', hf⟩ := ih h₁
    exact ⟨role', h', hf⟩

theorem mmDestroy (h : FrameUse dirs S m role) (hd : m.mmDestroy mm = some m') :
    ∃ role', FrameUse dirs S m' role' ∧ m'.frame = m.frame := by
  unfold Mem.mmDestroy at hd
  split at hd
  · cases hd
    obtain ⟨role₁, h₁, hf⟩ := h.kfrees (m.mms mm).mmapList
    obtain ⟨role', h'⟩ := h₁.kfree mm
    exact ⟨role', h'.congr rfl rfl rfl rfl, hf⟩
  · cases hd

theorem mmMap (h : FrameUse dirs S m role) (hm : m.mmMap mm addr len flags = some (ret, m')) :
    ∃ role', FrameUse dirs S m' role' ∧ m'.frame = m.frame ∧ SameDirs m m' := by
  unfold Mem.mmMap at hm
  dsimp only at hm
  split at hm
  · cases hm
    exact ⟨role, h, rfl, .of_mms rfl⟩
  · rename_i hu
    cases hf : m.findVma (some mm) (roundDown addr pgSize) with
    | mk found m₁ =>
      obtain ⟨h₁, hf₁⟩ := h.findVma hf
      have hd₁ : SameDirs m m₁ := .of_same (.findVma hf)
      rw [hf] at hm
      dsimp only at hm
      split at hm
      · cases hm
        exact ⟨role, h₁, hf₁, hd₁⟩
      · split at hm
        · rename_i m₂ hv
          cases hm
          obtain ⟨role₂, h₂, hf₂, hmms₂⟩ := h₁.vmaCreate hv
          exact ⟨role₂, h₂, hf₂.trans hf₁, hd₁.trans (.of_mms hmms₂)⟩
        · rename_i vma m₂ hv
          obtain ⟨m₃, hi, he⟩ := Option.map_eq_some_iff.1 hm
          cases he
          obtain ⟨role₂, h₂, hf₂, hmms₂⟩ := h₁.vmaCreate hv
          obtain ⟨h₃, hf₃⟩ := h₂.insertVmaStruct hi
          have hend : vma.vmEnd ≤ userTop := by
            rw [vmaCreate_vmEnd hv]
            exact (not_not.1 hu).2.2
          exact ⟨role₂, h₃, (hf₃.trans hf₂).trans hf₁, (hd₁.trans (.of_mms hmms₂)).trans (.insertVmaStruct hi hend)⟩

/-- A page becomes a page directory that maps what the boot directory does. -/
theorem addRoot (h : FrameUse dirs S m role) (ha : A.allocPages m.phys 1 = (some d, s)) : d ∉ dirs ∧
    FrameUse (insert d dirs) S ((m.setPhys s).setFrame d (m.frame A.bootPgdir)) (update role d (.node d [])) ∧
      Spares dirs m ((m.setPhys s).setFrame d (m.frame A.bootPgdir)) := by
  have hfree := h.paged.alloc_free ha
  have hne (f : Nat) (hf : role f ≠ .free) : f ≠ d := by
    rintro rfl
    exact hf hfree
  have hd : d ∉ dirs := fun hd => hne d (by rw [(h.root d).2 hd]; simp) rfl
  have hboot : A.bootPgdir ≠ d := hne _ (by rw [h.boot.1]; simp)
  generalize hm : (m.setPhys s).setFrame d (m.frame A.bootPgdir) = m'
  have hframe (f : Nat) (hf : f ≠ d) : m'.frame f = m.frame f := by
    rw [← hm]
    exact Function.update_of_ne hf ..
  have hself : m'.frame d = m.frame A.bootPgdir := by
    rw [← hm]
    exact Function.update_self ..
  have hz (i : Nat) (hi : i < 256) : pteValid (m'.frame d i) = false := by
    rw [hself]
    exact h.bootEmpty i hi
  have hupd (f : Nat) (hf : f ≠ d) : update role d (.node d []) f = role f := Function.update_of_ne hf ..
  have htables : Tables sv39 m'.frame role := by
    refine h.paged.tables.congr fun f c p hf => hframe f (hne f ?_)
    rw [hf]
    simp
  have hpaged : Paged m' (update role d (.node d [])) := by
    refine h.paged.alloc ?_ (by simp) (fun f _ => ?_) (htables.addRoot hfree hz)
    · rw [← hm]
      exact ha
    · rw [← hm]
      rfl
  have hpte (c : Nat) (hc : c ∈ dirs) (v : Nat) (hv : v < userVpn) : m'.pteAt c v = m.pteAt c v := by
    have hcd : c ≠ d := fun he => hd (he ▸ hc)
    refine h.paged.pteAt_congr hpaged (fun f p => ?_) (fun f p hf => hframe f (hne f (by rw [hf]; simp)))
      ((h.root c).2 hc) hv
    by_cases hfd : f = d
    · rw [hfd, Function.update_self, hfree]
      exact iff_of_false (fun he => hcd (Role.node.inj he).1.symm) nofun
    · rw [hupd f hfd]
  have hnone (v : Nat) (hv : v < userVpn) : m'.mapped (d, v) = none := by
    rw [Mem.mapped, pteAt_empty hz hv]
    rfl
  have hold (x : Nat × Nat) (hx : x ∈ userSlots (insert d dirs)) (p : Nat) (hp : m'.mapped x = some p) :
      x ∈ userSlots dirs ∧ m.mapped x = some p := by
    obtain ⟨hc, hv⟩ := mem_userSlots.1 hx
    rcases Finset.mem_insert.1 hc with hcd | hc
    · rw [show x = (d, x.2) from Prod.ext hcd rfl, hnone _ hv] at hp
      cases hp
    · rw [Mem.mapped, hpte _ hc _ hv] at hp
      exact ⟨mem_userSlots.2 ⟨hc, hv⟩, hp⟩
  have hck : m'.checkMm = m.checkMm := by
    rw [← hm]
    rfl
  have harena : A.arena m'.phys = A.arena m.phys := by
    rw [← hm]
    exact A.allocPages_arena ha
  refine ⟨hd, ⟨⟨⟨hpaged.tables, hpaged.free, hpaged.pool, hpaged.unused⟩, rfl, fun c => ?_, fun _ => Iff.rfl, fun p hp => ?_⟩,
    hck.trans h.unchecked, fun x hx y hy p hxp hyp => ?_, ?_, ?_, fun c hc i hi => ?_, fun f hf => ?_⟩,
    h.spares (Finset.Subset.refl _) (fun f hf => hframe f (hne f (by rw [hf]; simp))) hpte⟩
  · by_cases hcd : c = d
    · rw [hcd, Function.update_self]
      exact iff_of_true rfl (Finset.mem_insert_self ..)
    · rw [hupd c hcd, Finset.mem_insert, or_iff_right hcd]
      exact h.root c
  · have hpd : p ≠ d := by
      rintro rfl
      rw [Function.update_self] at hp
      cases hp
    rw [hupd p hpd] at hp
    have hcount : m'.mapCount (insert d dirs) p = m.mapCount dirs p := by
      unfold Mem.mapCount tally
      congr 1
      ext x
      simp only [Finset.mem_filter]
      refine ⟨fun hx => hold x hx.1 p hx.2, fun hx => ?_⟩
      obtain ⟨hc, hv⟩ := mem_userSlots.1 hx.1
      refine ⟨userSlots_mono (Finset.subset_insert ..) hx.1, ?_⟩
      rw [Mem.mapped, hpte _ hc _ hv]
      exact hx.2
    show m'.ref p = m'.mapCount (insert d dirs) p
    rw [hcount, ← hm]
    exact h.exact p hp
  · obtain ⟨hx, hxp⟩ := hold x hx p hxp
    obtain ⟨hy, hyp⟩ := hold y hy p hyp
    exact h.sole x hx y hy p hxp hyp
  · rw [hupd _ hboot, harena]
    exact h.boot
  · rw [hframe _ hboot]
    exact h.bootEmpty
  · rw [hframe _ hboot]
    rcases Finset.mem_insert.1 hc with rfl | hc
    · rw [hself]
    · rw [hframe c fun he => hd (he ▸ hc)]
      exact h.high c hc i hi
  · obtain ⟨ho, hpool⟩ := h.held f hf
    rw [hupd f (hne f (by rw [ho]; simp)), harena]
    exact ⟨ho, hpool⟩

/-- `setup_pgdir`: the new directory has the kernel half of the boot directory, and maps nothing. -/
theorem setupPgdir (h : FrameUse dirs S m role) (hr : m.setupPgdir mm = some (ok, m')) :
    ok = false ∧ FrameUse dirs S m' role ∧ m'.frame = m.frame ∨
      ∃ d role', ok = true ∧ d ∉ dirs ∧ FrameUse (insert d dirs) S m' role' ∧ Spares dirs m m' ∧
        (m'.mms mm).pgdir = some d ∧ (m'.mms mm).mmapList = (m.mms mm).mmapList := by
  obtain ⟨⟨r, m₁⟩, ha, hr⟩ := Option.bind_eq_some_iff.1 hr
  rcases allocPages_plain h.plain ha with ⟨rfl, rfl⟩ | ⟨d, s, rfl, hp, rfl⟩
  · cases hr
    exact .inl ⟨rfl, h.fail, rfl⟩
  · obtain ⟨d', hk, hr⟩ := Option.bind_eq_some_iff.1 hr
    obtain rfl := kva_some hk
    cases hr
    obtain ⟨hd, h', hs⟩ := h.addRoot hp
    refine .inr ⟨d, _, rfl, hd, h'.congr rfl rfl rfl rfl, hs.trans (.of_frame rfl), ?_, ?_⟩
    · rw [setMm_self]
    · rw [setMm_self]
      rfl

end FrameUse

end

end UCore
