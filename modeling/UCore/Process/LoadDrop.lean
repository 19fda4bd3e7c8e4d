import UCore.Mm.ExitMmap
import UCore.Process.LoadExact
import UCore.Process.PagingSys

namespace UCore
set_option autoImplicit true
open Function (update)

section
variable {A : PhysSys} {m m₁ s t : Mem A} {role role₁ : Nat → Role}

/-- The pages of an address space that `load_icode` has built are in its areas. -/
theorem LoadedMem.covered (h : LoadedMem mm d binary hdrs m role t)
    (hp : StackPage v ∨ ∃ ph ∈ hdrs, ph.IsLoad ∧ ph.Page v) :
    Covered (t.mms mm).mmapList v := by
  have hin (a : Nat × Nat × BitVec 32) (ha : a ∈ stackArea :: (hdrs.filter fun ph => ph.IsLoad).map ProgHdr.area)
      (hb : a.1 ≤ v * pgSize ∧ v * pgSize < a.2.1) : Covered (t.mms mm).mmapList v := by
    obtain ⟨vma, hv, rfl⟩ := List.mem_map.1 (h.areas.mem_iff.2 ha)
    exact ⟨vma, hv, hb⟩
  rcases hp with hp | ⟨ph, hx, hl, hp⟩
  · refine hin stackArea (List.mem_cons_self ..) ?_
    obtain ⟨h₁, h₂⟩ := hp
    unfold stackArea ustackSize
    unfold ustackTop userTop pgSize at *
    dsimp only
    omega
  · refine hin ph.area (List.mem_cons_of_mem _ (List.mem_map_of_mem ?_)) (ProgHdr.page_area hp (h.top ph hx hl))
    exact List.mem_filter.2 ⟨hx, decide_eq_true hl⟩

theorem kfrees_free (l : List Vma) (m : Mem A) :
    A.free (l.foldl (fun m vma => m.kfree vma.ptr) m).phys = A.free m.phys ∧
      (l.foldl (fun m vma => m.kfree vma.ptr) m).swapInitOk = m.swapInitOk := by
  induction l generalizing m with
  | nil => exact ⟨rfl, rfl⟩
  | cons v l ih =>
    obtain ⟨hf, hs⟩ := ih (m.kfree v.ptr)
    exact ⟨hf.trans A.kfree_free, hs⟩

theorem mmDestroy_free (hz : (m.mms mm).mmCount = 0) :
    ∃ u, m.mmDestroy mm = some u ∧ A.free u.phys = A.free m.phys ∧ u.swapInitOk = m.swapInitOk := by
  obtain ⟨hf, hs⟩ := kfrees_free (m.mms mm).mmapList m
  exact ⟨_, if_pos hz, A.kfree_free.trans hf, hs⟩

/-- The cleanup of an address space that `load_icode` has built does not fail, and the frame of its page directory
is free afterwards. -/
theorem LoadedMem.cleanup (h : LoadedMem mm d binary hdrs m role t) (hd : role d = .node d []) (x : MmStruct)
    (hdir : x.pgdir = (t.mms mm).pgdir) (hlist : x.mmapList = (t.mms mm).mmapList) (hz : x.mmCount = 0) :
    ∃ u, (t.setMm mm x).badCleanupMmap mm = some u ∧ A.free u.phys d ∧ u.swapInitOk = t.swapInitOk := by
  obtain ⟨role', P, B, hf, -, hpages⟩ := h.filled
  have hm := (hf.paged.setMm mm x).paged
  have hd' : role' d = .node d [] := by rw [hf.keeps d (by simp [hd]), hd]
  have hmapped (v : Nat) (hv : v < userVpn) (hval : pteValid (t.pteAt d v)) : ∃ perm, P v = some perm := by
    cases hP : P v with
    | none =>
      rw [hf.rest v hv hP] at hval
      cases hval
    | some perm => exact ⟨perm, rfl⟩
  have hself : (t.setMm mm x).mms mm = x := setMm_self ..
  rw [← hself, h.pgdir] at hdir
  rw [← hself] at hlist hz
  have hareas : VmaList ((t.setMm mm x).mms mm).mmapList := hlist ▸ h.list
  have hone : (t.setMm mm x).RefOne d := by
    intro v hv hval
    obtain ⟨perm, hP⟩ := hmapped v hv hval
    obtain ⟨q, -, hq, -, href⟩ := hf.page v hv perm hP
    exact (congrArg t.ref hq).trans href
  have hcovered (v : Nat) (hv : v < userVpn) (hval : pteValid ((t.setMm mm x).pteAt d v)) :
      Covered ((t.setMm mm x).mms mm).mmapList v := by
    obtain ⟨perm, hP⟩ := hmapped v hv hval
    rw [hlist]
    refine h.covered (((hpages v perm).1 hP).imp And.left ?_)
    rintro ⟨ph, hx, hl, hp, -⟩
    exact ⟨ph, hx, hl, hp⟩
  obtain ⟨l, u, hexit, hput, hfreed, -⟩ := exitMmap_putPgdir hm hd' hdir hz hareas hf.inj hone hcovered
  have hroot : ¬ A.free u.phys d := by
    rw [hfreed.free_iff hm]
    rintro (hc | hc)
    · rw [← hm.free, hd'] at hc
      cases hc
    · obtain ⟨g, i, hlink, rfl⟩ := hfreed.linked d hc
      obtain ⟨p, -, -, hr⟩ := hm.linked_role hlink
      rw [hd'] at hr
      rcases hr with ⟨-, hr⟩ | ⟨-, hr⟩ <;> simp at hr
  obtain ⟨h₁, h₂, h₃⟩ := hm.pool d (by simp [hd'])
  rw [← hfreed.vars.arena] at h₃
  have hfree : A.free (u.freePage d).phys d := by
    refine (A.freePages_free fun f hle hlt => ?_).2 (.inr ⟨Nat.le_refl d, Nat.lt_succ_self d⟩)
    obtain rfl : f = d := by omega
    exact ⟨h₁, h₂, hroot, h₃⟩
  have hcount : ((u.freePage d).mms mm).mmCount = 0 := by
    show (u.mms mm).mmCount = 0
    rw [hfreed.vars.mms, hz]
  obtain ⟨u', hdestroy, hsame, hswap⟩ := mmDestroy_free hcount
  refine ⟨u', ?_, by rwa [hsame], hswap.trans hfreed.vars.swapInitOk⟩
  unfold Mem.badCleanupMmap
  rw [hexit]
  simp only [Option.bind_eq_bind, Option.bind_some]
  rw [hput, Option.bind_some]
  exact hdestroy

/-- An access to an address that is mapped with the permission takes no fault. -/
theorem touch_mapped (hd : (m.mms mm).pgdir = some d)
    (ht : (m.translate d addr).any (fun r => decide (r.2 &&& perm ≠ 0 ∧ r.1 / pgSize < npage)) = true) :
    (m.touch mm addr perm (fuel + 1)).map Prod.snd = some m := by
  obtain ⟨⟨pa, fl⟩, hr, hp⟩ := (Option.any_eq_true ..).1 ht
  obtain ⟨hfl, hpa⟩ := of_decide_eq_true hp
  unfold Mem.touch
  rw [hd]
  simp only [Option.bind_eq_bind, Option.bind_some]
  have hfilter : (m.translate d addr).filter (fun r => r.2 &&& perm ≠ 0) = some (pa, fl) := by
    rw [hr]
    simpa [Option.filter] using hfl
  rw [hfilter]
  dsimp only
  rw [kva_eq hpa]
  rfl

/-- A memory without page tables. -/
theorem Paged.of_unused {m : Mem A} (h : ∀ f, A.free m.phys f → m.ref f = 0) : ∃ role, Paged m role := by
  classical
  have hfree (f : Nat) : (if A.free m.phys f then Role.free else .other) = .free ↔ A.free m.phys f := by
    split <;> simp [*]
  have hnode (f d : Nat) (p : List Nat) : (if A.free m.phys f then Role.free else .other) ≠ .node d p := by
    split <;> simp
  refine ⟨fun f => if A.free m.phys f then .free else .other, ⟨?_, ?_, ?_, ?_⟩, hfree, fun f hf => ?_, fun f hf => ?_⟩
  · exact fun f d hf => (hnode f d [] hf).elim
  · exact fun f d p i hf => (hnode f d p hf).elim
  · exact fun f d p i hf => (hnode f d p hf).elim
  · exact fun f d p i hf => (hnode f d (p ++ [i]) hf).elim
  · have hf : A.free m.phys f := by
      by_contra hn
      exact hf (if_neg hn)
    obtain ⟨h₁, h₂⟩ := A.free_bound hf
    exact ⟨h₁, h₂, A.free_arena hf⟩
  · exact h f ((hfree f).1 hf)

theorem readBytes_kernel {m m' : Mem A} (h : m.readBytes none addr len = some m') : m' = m := by
  induction len generalizing addr with
  | zero => exact (Option.some.inj h).symm
  | succ len ih =>
    obtain ⟨m₁, hb, h⟩ := Option.bind_eq_some_iff.1 h
    obtain ⟨b, -, rfl⟩ := Option.map_eq_some_iff.1 hb
    exact ih h

theorem userMemCheck_kernel {m m' : KMem A} (h : m.userMemCheck none addr len write = (b, m')) : m'.mem = m.mem := by
  unfold KMem.userMemCheck at h
  split at h
  · rename_i b' m₁ hs
    cases h
    exact (Prod.mk.inj (Option.some.inj hs)).2.symm
  · cases h
    rfl

end

section
variable {A : PhysSys} {m m' : KMem A}

theorem userMemCheck_cache (hx : x ∈ m.mem.spaces) (hb : (m.userMemCheck (some x) addr len write).1 = true) :
    ∃ m₁ c, m.userMemCheck (some x) addr len write = (true, m₁) ∧ m₁.mem = m.mem.setCache x c := by
  obtain ⟨b, c, hr, -, -⟩ := userMemCheck_spec (m.ok.tidy x hx) addr len write
  obtain ⟨b', m₁, hm⟩ : ∃ b' m₁, m.userMemCheck (some x) addr len write = (b', m₁) := ⟨_, _, rfl⟩
  rw [hm] at hb
  obtain rfl : b' = true := hb
  refine ⟨m₁, c, hm, ?_⟩
  unfold KMem.userMemCheck at hm
  split at hm
  · rename_i b' m' hs
    cases hm
    exact congrArg Prod.snd (Option.some.inj (hs.symm.trans hr))
  · cases hm

theorem dropMm_some (hx : x ∈ m.mem.spaces) (hu : m.mem.dropMm x = some u) :
    ∃ m', m.dropMm x = some m' ∧ m'.mem = u := by
  have hsome : (m.dropMm x).isSome := by
    unfold KMem.dropMm
    rw [dif_pos hx, Option.isSome_pmap, hu]
    rfl
  obtain ⟨m', hm⟩ := Option.isSome_iff_exists.1 hsome
  exact ⟨m', hm, Option.some.inj ((dropMm_eq hm).2.1.symm.trans hu)⟩

end

section
variable {m : Mem framePool}

theorem FramePool.alloc_one (s : FramePool) (h : f ∈ s.free) :
    ∃ p s', s.alloc 1 = (some p, s') ∧ 0x80200 ≤ p ∧ p < npage := by
  rcases alloc_cases s 1 with ha | ⟨p, s', ha, hp, -⟩
  · exfalso
    have hnone : (s.free.find? fun p => ∀ i < 1, p + i ∈ s.free) = none := by
      unfold alloc at ha
      split at ha
      · cases ha
      · assumption
    refine List.find?_eq_none.1 hnone f h (decide_eq_true fun i hi => ?_)
    obtain rfl := Nat.lt_one_iff.1 hi
    exact h
  · exact ⟨p, s', ha, s.bound p (hp 0 Nat.one_pos)⟩

theorem mmCreate_pool (hs : m.swapInitOk = false) : ∃ mm m₁, m.mmCreate = (some mm, m₁) ∧ m₁.phys.free = m.phys.free := by
  unfold Mem.mmCreate
  dsimp only [framePool, Mem.setMm, Mem.setPhys]
  rw [hs]
  exact ⟨_, _, rfl, rfl⟩

theorem setupPgdir_pool (h : f ∈ m.phys.free) : ∃ m₁, m.setupPgdir mm = some (true, m₁) := by
  obtain ⟨p, s, ha, -, hp⟩ := m.phys.alloc_one h
  have hpage : m.allocPage = some (some p, m.setPhys s) := by
    unfold Mem.allocPage Mem.allocPages Mem.allocPagesLoop
    rw [show framePool.allocPages m.phys 1 = (some p, s) from ha]
  unfold Mem.setupPgdir
  rw [hpage]
  simp only [Option.bind_eq_bind, Option.bind_some]
  rw [kva_eq hp]
  exact ⟨_, rfl⟩

/-- With a free frame, there is memory for a new `mm_struct` and its page directory. -/
theorem framePool_room (h : f ∈ m.phys.free) (hs : m.swapInitOk = false) :
    ∃ mm m₁ m₂, m.mmCreate = (some mm, m₁) ∧ m₁.setupPgdir mm = some (true, m₂) := by
  obtain ⟨mm, m₁, hc, hfree⟩ := mmCreate_pool hs
  rw [← hfree] at h
  obtain ⟨m₂, hp⟩ := setupPgdir_pool h
  exact ⟨mm, m₁, m₂, hc, hp⟩

end

end UCore
