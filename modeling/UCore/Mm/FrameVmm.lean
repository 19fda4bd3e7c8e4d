import UCore.Mm.FrameOps

namespace UCore
set_option autoImplicit true

section
variable {A : PhysSys} {m m' : Mem A} {role role' : Nat → Role} {dirs kept : Finset Nat} {S : Nat → Prop}

namespace FrameUse

/-- The loop of `dup_mmap` changes the directory of the copy only. -/
theorem dupVmas (h : FrameUse dirs S m role) (hc : c ∈ dirs) (hd : d ∈ dirs) (hl : ∀ v ∈ l, v.vmEnd ≤ userTop)
    (hr : m.dupVmas toMm d c l = some (ret, m')) :
    ∃ role', FrameUse dirs S m' role' ∧ Spares (dirs.erase d) m m' ∧ SameDirs m m' := by
  induction l generalizing m role with
  | nil =>
    cases hr
    exact ⟨role, h, .refl .., .of_mms rfl⟩
  | cons vma l ih =>
    rw [Mem.dupVmas] at hr
    split at hr
    · rename_i m₁ hv
      cases hr
      obtain ⟨role₁, h₁, hf₁, hmms₁⟩ := h.vmaCreate hv
      exact ⟨role₁, h₁, .of_frame hf₁, .of_mms hmms₁⟩
    · rename_i nvma m₁ hv
      obtain ⟨role₁, h₁, hf₁, hmms₁⟩ := h.vmaCreate hv
      obtain ⟨m₂, hi, hr⟩ := Option.bind_eq_some_iff.1 hr
      obtain ⟨h₂, hf₂⟩ := h₁.insertVmaStruct hi
      have hend : nvma.vmEnd ≤ userTop := by
        rw [vmaCreate_vmEnd hv]
        exact hl vma (List.mem_cons_self ..)
      obtain ⟨⟨ok, m₃⟩, hcr, hr⟩ := Option.bind_eq_some_iff.1 hr
      obtain ⟨role₃, h₃, hs₃⟩ := h₂.copyRange hc hd hcr
      have hs : Spares (dirs.erase d) m m₃ := (Spares.of_frame (hf₂.trans hf₁)).trans hs₃
      have hdirs : SameDirs m m₃ :=
        ((SameDirs.of_mms hmms₁).trans (.insertVmaStruct hi hend)).trans (.of_same (.copyRange hcr))
      cases ok with
      | false =>
        cases hr
        exact ⟨role₃, h₃, hs, hdirs⟩
      | true =>
        obtain ⟨role', h', hs', hdirs'⟩ := ih h₃ (fun v hv => hl v (List.mem_cons_of_mem _ hv)) hr
        exact ⟨role', h', hs.trans hs', hdirs.trans hdirs'⟩

theorem dupMmap (h : FrameUse dirs S m role) (hfrom : (m.mms fromMm).pgdir = some c) (hc : c ∈ dirs)
    (hto : (m.mms toMm).pgdir = some d) (hd : d ∈ dirs) (hl : (m.mms fromMm).Low)
    (hr : m.dupMmap toMm fromMm = some (ret, m')) :
    ∃ role', FrameUse dirs S m' role' ∧ Spares (dirs.erase d) m m' ∧ SameDirs m m' := by
  obtain ⟨d', hd', hr⟩ := Option.bind_eq_some_iff.1 hr
  obtain ⟨c', hc', hr⟩ := Option.bind_eq_some_iff.1 hr
  obtain rfl := Option.some.inj (hd'.symm.trans hto)
  obtain rfl := Option.some.inj (hc'.symm.trans hfrom)
  exact h.dupVmas hc hd (fun v hv => hl v (List.mem_reverse.1 hv)) hr

/-- The page of `swap_in` is a new one. -/
theorem swapIn (h : FrameUse dirs S m role) (hs : m.swapIn mm addr = some (t, m')) (hk : kept ⊆ dirs) :
    ∃ role', FrameUse dirs S m' role' ∧ Fresh dirs t m' role' ∧ Spares kept m m' := by
  obtain ⟨⟨r, m₁⟩, ha, hs⟩ := Option.bind_eq_some_iff.1 hs
  rcases h.allocPage ha with ⟨rfl, -, -⟩ | ⟨t', s, rfl, -, rfl, h₁, ht⟩
  · cases hs
  · obtain ⟨d, -, hs⟩ := Option.bind_eq_some_iff.1 hs
    obtain ⟨r, -, hs⟩ := Option.bind_eq_some_iff.1 hs
    obtain ⟨⟨pt, i⟩, -, hs⟩ := Option.bind_eq_some_iff.1 hs
    obtain ⟨m₂, hr, hs⟩ := Option.bind_eq_some_iff.1 hs
    cases hs
    obtain ⟨o, -, hr⟩ := Option.bind_eq_some_iff.1 hr
    cases hr
    have hp : Spares kept m (m.setPhys s) := .of_frame rfl
    refine ⟨_, h₁.write ht.leaf _, ht.write h₁.toCounted _, hp.trans ?_⟩
    exact h₁.spares_write ht.leaf _ hk fun x hx => ht.unmapped x (userSlots_mono hk hx)

theorem swapMapSwappable (h : FrameUse dirs S m role) (hs : m.swapMapSwappable mm page = some m') :
    FrameUse dirs S m' role ∧ m'.frame = m.frame := by
  unfold Mem.swapMapSwappable at hs
  split at hs
  · cases hs
    exact ⟨h.congr rfl rfl rfl rfl, rfl⟩
  · cases hs

/-- `do_pgfault` for an address of the user half. -/
theorem doPgfault (h : FrameUse dirs S m role) (hpg : (m.mms mm).pgdir = some d) (hd : d ∈ dirs)
    (hv : vpn (roundDown addr pgSize) < userVpn) (hr : m.doPgfault (some mm) addr = some (ret, m')) :
    ∃ role', FrameUse dirs S m' role' ∧ Spares (dirs.erase d) m m' := by
  unfold Mem.doPgfault at hr
  split at hr
  · rename_i m₁ hf
    cases hr
    obtain ⟨h₁, hf₁⟩ := h.findVma hf
    exact ⟨role, h₁, .of_frame hf₁⟩
  · rename_i vma m₁ hf
    obtain ⟨h₁, hf₁⟩ := h.findVma hf
    have hs₁ : Spares (dirs.erase d) m m₁ := .of_frame hf₁
    split at hr
    · cases hr
      exact ⟨role, h₁, hs₁⟩
    · dsimp only at hr
      obtain ⟨mm', he, hr⟩ := Option.bind_eq_some_iff.1 hr
      cases he
      obtain ⟨d', hd', hr⟩ := Option.bind_eq_some_iff.1 hr
      rw [SameSpaces.pgdir (.findVma hf), hpg] at hd'
      cases hd'
      obtain ⟨⟨slot, m₂⟩, hg, hr⟩ := Option.bind_eq_some_iff.1 hr
      obtain ⟨role₂, h₂, hs₂, -⟩ := h₁.getPte hd hv hg
      have hs₂ := hs₁.trans (hs₂.mono (Finset.erase_subset d dirs))
      cases slot with
      | none =>
        cases hr
        exact ⟨role₂, h₂, hs₂⟩
      | some x =>
        obtain ⟨pt, i⟩ := x
        have hb : PermBits (if vma.vmFlags &&& vmWrite ≠ 0 then pteU ||| readWrite else pteU) := permBits_faultPerm vma
        dsimp only at hr
        split at hr
        · obtain ⟨⟨p, m₃⟩, ha, hr⟩ := Option.bind_eq_some_iff.1 hr
          obtain ⟨role₃, h₃, hs₃, -⟩ := h₂.pgdirAllocPage hd hv hb ha
          cases p <;> cases hr <;> exact ⟨role₃, h₃, hs₂.trans hs₃⟩
        · split at hr
          · obtain ⟨⟨page, m₃⟩, hs, hr⟩ := Option.bind_eq_some_iff.1 hr
            obtain ⟨role₃, h₃, ht₃, hs₃⟩ := h₂.swapIn hs (Finset.erase_subset d dirs)
            obtain ⟨⟨ok, m₄⟩, hi, hr⟩ := Option.bind_eq_some_iff.1 hr
            obtain ⟨role₄, h₄, hs₄, -⟩ := h₃.pageInsert ht₃ hd hv hb hi
            have hs₄ := (hs₂.trans hs₃).trans hs₄
            cases ok with
            | false =>
              cases hr
              exact ⟨role₄, h₄, hs₄⟩
            | true =>
              obtain ⟨m₅, hq, hr⟩ := Option.bind_eq_some_iff.1 hr
              cases hr
              obtain ⟨h₅, hf₅⟩ := h₄.swapMapSwappable hq
              exact ⟨role₄, h₅.congr rfl rfl rfl rfl, hs₄.trans (.of_frame hf₅)⟩
          · cases hr
            exact ⟨role₂, h₂, hs₂⟩

theorem userMemLoop (h : FrameUse dirs S m role) (hr : m.userMemLoop mm stop w start fuel = some (b, m')) :
    FrameUse dirs S m' role ∧ m'.frame = m.frame := by
  induction fuel generalizing m start with
  | zero => cases hr
  | succ fuel ih =>
    rw [Mem.userMemLoop] at hr
    split at hr
    · split at hr
      · rename_i m₁ hf
        cases hr
        exact h.findVma hf
      · rename_i vma m₁ hf
        obtain ⟨h₁, hf₁⟩ := h.findVma hf
        generalize (if w = true then vmWrite else vmRead) = flag at hr
        split at hr
        · cases hr
          exact ⟨h₁, hf₁⟩
        · split at hr
          · cases hr
            exact ⟨h₁, hf₁⟩
          · split at hr
            · cases hr
              exact ⟨h₁, hf₁⟩
            · obtain ⟨h', hf'⟩ := ih h₁ hr
              exact ⟨h', hf'.trans hf₁⟩
    · cases hr
      exact ⟨h, rfl⟩

theorem userMemCheck (h : FrameUse dirs S m role) (hr : m.userMemCheck mm addr len w = some (b, m')) :
    FrameUse dirs S m' role ∧ m'.frame = m.frame := by
  unfold Mem.userMemCheck at hr
  dsimp only at hr
  split at hr
  · cases hr
    exact ⟨h, rfl⟩
  · split at hr
    · cases hr
      exact ⟨h, rfl⟩
    · exact h.userMemLoop hr

end FrameUse

end

end UCore
