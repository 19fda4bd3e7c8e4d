import UCore.Mm.FrameUse

namespace UCore
set_option autoImplicit true
open Function (update)
open Tables (Beneath)

section
variable {A : PhysSys} {m m' : Mem A} {role : Nat → Role} {dirs dirs' : Finset Nat} {S : Nat → Prop}

/-- The roles after a cut: the table at the place of the cut is free, and what is beneath it is used for nothing. -/
theorem exists_cutRole (hf : Beneath sv39 m.frame role d p f) : ∃ role' : Nat → Role, role' f = .free ∧
    (∀ g, g ≠ f → Beneath sv39 m.frame role d p g → role' g = .other) ∧
    ∀ g, ¬ Beneath sv39 m.frame role d p g → role' g = role g := by
  classical
  refine ⟨fun g => if g = f then .free else if Beneath sv39 m.frame role d p g then .other else role g, if_pos rfl,
    fun g hg hb => ?_, fun g hb => ?_⟩
  · exact (if_neg hg).trans (if_pos hb)
  · refine (if_neg ?_).trans (if_neg hb)
    rintro rfl
    exact hb hf

/-- What is beneath a place of a tree is a table or a leaf. -/
theorem Paged.beneath_role (h : Paged m role) (hb : Beneath sv39 m.frame role d p g) :
    (∃ q, role g = .node d (p ++ q)) ∨ role g = .leaf := by
  rcases hb with hq | ⟨e, q, i, he, hl, hi, hv, rfl⟩
  · exact .inl hq
  · exact .inr (h.tables.leaf e d _ i he hl hi hv)

namespace FrameUse

/-- A frame is in one slot of one table. -/
theorem sole_entry (h : FrameUse dirs S m role) (he : role e = .node c q) (hq : q.length = 2)
    (hi : i < sv39.width q.length) (hv : pteValid (m.frame e i)) (he' : role e' = .node c' q') (hq' : q'.length = 2)
    (hi' : i' < sv39.width q'.length) (hv' : pteValid (m.frame e' i'))
    (ht : ptePpn (m.frame e i) = ptePpn (m.frame e' i')) : e = e' := by
  obtain ⟨v, hlt, rfl, rfl, hp⟩ := h.paged.entry_vpn he hq hi
  obtain ⟨v', hlt', rfl, rfl, hp'⟩ := h.paged.entry_vpn he' hq' hi'
  have hd := (h.root c).1 (h.tables.root_role he)
  have hd' := (h.root c').1 (h.tables.root_role he')
  rw [hp] at hv ht
  rw [hp'] at hv' ht
  have heq := h.sole (c, v) (mem_userSlots.2 ⟨hd, hlt⟩) (c', v') (mem_userSlots.2 ⟨hd', hlt'⟩) _
    (pteFrame_eq_some.2 ⟨hv, rfl⟩) (pteFrame_eq_some.2 ⟨hv', ht.symm⟩)
  cases heq
  exact h.tables.inj he he'

/-- The table `f` at the path `p` is given back, and no entry leads to it any more. What is beneath it is lost. -/
theorem cut (h : FrameUse dirs S m role) (hf : role f = .node d p)
    (hdirs : ∀ c, c ∈ dirs' ↔ c ∈ dirs ∧ ¬ (c = d ∧ p = []))
    (hkept : ∀ g c q i, role g = .node c q → i < sv39.width q.length →
      (pteValid (m.frame g i) → role (ptePpn (m.frame g i)) ≠ .node d p) → m'.frame g i = m.frame g i)
    (hclear : ∀ g c q i, role g = .node c q → i < sv39.width q.length → pteValid (m.frame g i) →
      role (ptePpn (m.frame g i)) = .node d p → pteValid (m'.frame g i) = false)
    (hother : ∀ g, (∀ c q, role g ≠ .node c q) → m'.frame g = m.frame g)
    (hhigh : ∀ c ∈ dirs, ∀ i, 256 ≤ i → m'.frame c i = m.frame c i) (hphys : m'.phys = A.freePages m.phys f 1)
    (href : m'.ref = update m.ref f 0) (hck : m'.checkMm = m.checkMm) : ∃ role', FrameUse dirs' S m' role' ∧
      Spares (dirs.erase d) m m' ∧ ∀ g c q, role g = .node c q → ¬ (c = d ∧ p <+: q) → role' g = .node c q := by
  have hbf : Beneath sv39 m.frame role d p f := .inl ⟨[], by rw [List.append_nil]; exact hf⟩
  obtain ⟨role', hfree, hlost, hrest⟩ := exists_cutRole hbf
  have hpaged := h.paged
  have hpool := hpaged.pool f (by rw [hf]; simp)
  have hnf : ¬ A.free m.phys f := by
    rw [← hpaged.free, hf]
    simp
  have hbrole (g : Nat) (hb : Beneath sv39 m.frame role d p g) : role g ≠ .free ∧ role g ≠ .other := by
    rcases hpaged.beneath_role hb with ⟨q, hr⟩ | hr <;> rw [hr] <;> exact ⟨by simp, by simp⟩
  have hgone (g : Nat) (hb : Beneath sv39 m.frame role d p g) : role' g = .free ∨ role' g = .other := by
    by_cases hg : g = f
    · rw [hg]
      exact .inl hfree
    · exact .inr (hlost g hg hb)
  have hkeep (g : Nat) (r : Role) (hr : role' g = r) (h₁ : r ≠ .free) (h₂ : r ≠ .other) :
      ¬ Beneath sv39 m.frame role d p g ∧ role g = r := by
    by_cases hb : Beneath sv39 m.frame role d p g
    · rcases hgone g hb with hc | hc <;> rw [hr] at hc
      · exact absurd hc h₁
      · exact absurd hc h₂
    · exact ⟨hb, (hrest g hb).symm.trans hr⟩
  have htables : Tables sv39 m'.frame role' := by
    refine h.tables.cut ?_ hkept hclear hgone hrest
    intro e c q i e' c' q' i' he hq hi hv he' hq' hi' hv' ht
    exact h.sole_entry he hq hi hv he' hq' hi' hv' ht
  have hfreeIff (g : Nat) : A.free m'.phys g ↔ A.free m.phys g ∨ g = f := by
    rw [hphys, A.freePages_free fun x h₁ h₂ => ?_]
    · exact or_congr_right (by omega)
    · obtain rfl : x = f := by omega
      exact ⟨hpool.1, hpool.2.1, hnf, hpool.2.2⟩
  have harena : A.arena m'.phys = A.arena m.phys := by
    rw [hphys]
    exact A.freePages_arena
  have hpaged' : Paged m' role' := by
    refine ⟨htables, fun g => ?_, fun g hg => ?_, fun g hg => ?_⟩
    · rw [hfreeIff, ← hpaged.free]
      by_cases hgf : g = f
      · rw [hgf]
        exact iff_of_true hfree (.inr rfl)
      · rw [or_iff_left hgf]
        by_cases hb : Beneath sv39 m.frame role d p g
        · rw [hlost g hgf hb]
          exact iff_of_false (by simp) (hbrole g hb).1
        · rw [hrest g hb]
    · rw [harena]
      by_cases hb : Beneath sv39 m.frame role d p g
      · exact hpaged.pool g (hbrole g hb).2
      · rw [hrest g hb] at hg
        exact hpaged.pool g hg
    · rw [href]
      by_cases hgf : g = f
      · rw [hgf, Function.update_self]
      · rw [Function.update_of_ne hgf]
        by_cases hb : Beneath sv39 m.frame role d p g
        · rw [hlost g hgf hb] at hg
          cases hg
        · rw [hrest g hb] at hg
          exact hpaged.unused g hg
  have hroot (c : Nat) : role' c = .node c [] ↔ c ∈ dirs' := by
    rw [hdirs, ← h.root]
    constructor
    · intro hc
      obtain ⟨hb, hr⟩ := hkeep c _ hc (by simp) (by simp)
      refine ⟨hr, fun hcd => hb (.inl ⟨[], ?_⟩)⟩
      rw [hr, hcd.1, hcd.2]
      rfl
    · rintro ⟨hr, hne⟩
      refine (hrest c fun hb => ?_).trans hr
      obtain ⟨q, hq⟩ := hb.table h.tables hr
      obtain ⟨hcd, hnil⟩ := Role.node.inj (hr.symm.trans hq)
      exact hne ⟨hcd, (List.append_eq_nil_iff.1 hnil.symm).1⟩
  -- the slots whose table is still there keep their entries, and the others have none
  have hpte (c v : Nat) (hc : c ∈ dirs') (hv : v < userVpn) : m'.pteAt c v = m.pteAt c v ∧
      (∀ t, role t = .node c (vpath v) → ¬ Beneath sv39 m.frame role d p t) ∨ c = d ∧ m'.mapped (c, v) = none ∧
        ∀ t, role t = .node c (vpath v) → Beneath sv39 m.frame role d p t := by
    have hrc := (hroot c).2 hc
    have hrc₀ := (hkeep c _ hrc (by simp) (by simp)).2
    by_cases ht : ∃ t, role t = .node c (vpath v)
    · obtain ⟨t, ht⟩ := ht
      by_cases hb : Beneath sv39 m.frame role d p t
      · obtain ⟨q, hq⟩ := hb.table h.tables ht
        refine .inr ⟨(Role.node.inj (ht.symm.trans hq)).1, ?_, fun t' ht' => h.tables.inj ht' ht ▸ hb⟩
        rw [Mem.mapped, hpaged'.pteAt_none hrc hv fun t' ht' => ?_]
        · rfl
        · obtain ⟨hb', ht'⟩ := hkeep t' _ ht' (by simp) (by simp)
          exact hb' (h.tables.inj ht' ht ▸ hb)
      · refine .inl ⟨?_, fun t' ht' => h.tables.inj ht' ht ▸ hb⟩
        rw [hpaged'.pteAt_node ((hrest t hb).trans ht) hv, hpaged.pteAt_node ht hv]
        have hi : v % 2 ^ 9 < sv39.width (vpath v).length := Nat.mod_lt _ (by decide)
        refine hkept t c (vpath v) _ ht hi fun hval => ?_
        have hleaf : role (ptePpn (m.frame t (v % 2 ^ 9))) = .leaf := h.tables.leaf t c _ _ ht rfl hi hval
        rw [hleaf]
        simp
    · refine .inl ⟨?_, fun t' ht' => absurd ⟨t', ht'⟩ ht⟩
      rw [hpaged'.pteAt_none hrc hv fun t' ht' => ht ⟨t', (hkeep t' _ ht' (by simp) (by simp)).2⟩,
        hpaged.pteAt_none hrc₀ hv fun t' ht' => ht ⟨t', ht'⟩]
  have hsub (x : Nat × Nat) (hx : x ∈ userSlots dirs') : x ∈ userSlots dirs := by
    obtain ⟨hc, hv⟩ := mem_userSlots.1 hx
    exact mem_userSlots.2 ⟨((hdirs _).1 hc).1, hv⟩
  have hold (x : Nat × Nat) (hx : x ∈ userSlots dirs') (g : Nat) (hm : m'.mapped x = some g) : m.mapped x = some g := by
    obtain ⟨hc, hv⟩ := mem_userSlots.1 hx
    rcases hpte x.1 x.2 hc hv with ⟨he, -⟩ | ⟨-, he, -⟩
    · rw [Mem.mapped, he] at hm
      exact hm
    · rw [show m'.mapped x = none from he] at hm
      cases hm
  have hnew (x : Nat × Nat) (hx : x ∈ userSlots dirs) (g : Nat) (hm : m.mapped x = some g)
      (hb : ¬ Beneath sv39 m.frame role d p g) : x ∈ userSlots dirs' ∧ m'.mapped x = some g := by
    obtain ⟨hc, hv⟩ := mem_userSlots.1 hx
    have hrc := (h.root _).2 hc
    obtain ⟨hval, hg⟩ := pteFrame_eq_some.1 hm
    obtain ⟨t, ht⟩ : ∃ t, role t = .node x.1 (vpath x.2) := by
      by_contra hno
      rw [hpaged.pteAt_none hrc hv fun t ht => hno ⟨t, ht⟩] at hval
      cases hval
    have hi : x.2 % 2 ^ 9 < sv39.width (vpath x.2).length := Nat.mod_lt _ (by decide)
    rw [hpaged.pteAt_node ht hv] at hval hg
    -- a page below a lost table is lost
    have hbt : ¬ Beneath sv39 m.frame role d p t := by
      intro hbt
      obtain ⟨q, hq⟩ := hbt.table h.tables ht
      obtain ⟨hxd, hpq⟩ := Role.node.inj (ht.symm.trans hq)
      refine hb (.inr ⟨t, q, _, hq, ?_, ?_, hval, hg⟩)
      · rw [← hpq]
        rfl
      · rw [← hpq]
        exact hi
    have hc' : x.1 ∈ dirs' := by
      refine (hdirs _).2 ⟨hc, fun hcd => hbt (.inl ⟨vpath x.2, ?_⟩)⟩
      rw [ht, hcd.1, hcd.2]
      rfl
    refine ⟨mem_userSlots.2 ⟨hc', hv⟩, ?_⟩
    rcases hpte x.1 x.2 hc' hv with ⟨he, -⟩ | ⟨-, -, hno⟩
    · rw [Mem.mapped, he]
      exact hm
    · exact absurd (hno t ht) hbt
  have hexact (g : Nat) (hg : role' g = .leaf) : m'.ref g = m'.mapCount dirs' g := by
    obtain ⟨hb, hr⟩ := hkeep g _ hg (by simp) (by simp)
    have hgf : g ≠ f := by
      rintro rfl
      exact hb hbf
    have hcount : m'.mapCount dirs' g = m.mapCount dirs g := by
      unfold Mem.mapCount tally
      congr 1
      ext x
      simp only [Finset.mem_filter]
      exact ⟨fun hx => ⟨hsub x hx.1, hold x hx.1 g hx.2⟩, fun hx => hnew x hx.1 g hx.2 hb⟩
    rw [href, Function.update_of_ne hgf, hcount]
    exact h.exact g hr
  have hnb (g : Nat) (hg : role g = .other) : ¬ Beneath sv39 m.frame role d p g := fun hb => (hbrole g hb).2 hg
  have hboot : m'.frame A.bootPgdir = m.frame A.bootPgdir := hother _ (by rw [h.boot.1]; simp)
  refine ⟨role', ⟨⟨⟨hpaged'.tables, hpaged'.free, hpaged'.pool, hpaged'.unused⟩, rfl, hroot, fun _ => Iff.rfl, hexact⟩,
    hck.trans h.unchecked, fun x hx y hy g hm hm' => ?_, ?_, ?_, fun c hc i hi => ?_, fun g hg => ?_⟩,
    h.spares (Finset.erase_subset ..) (fun g hg => hother g (by rw [hg]; simp)) fun c hc v hv => ?_, fun g c q hg hne => ?_⟩
  · exact h.sole x (hsub x hx) y (hsub y hy) g (hold x hx g hm) (hold y hy g hm')
  · rw [harena]
    exact ⟨(hrest _ (hnb _ h.boot.1)).trans h.boot.1, h.boot.2⟩
  · rw [hboot]
    exact h.bootEmpty
  · have hc := ((hdirs c).1 hc).1
    rw [hboot, hhigh c hc i hi]
    exact h.high c hc i hi
  · obtain ⟨ho, hp⟩ := h.held g hg
    rw [harena]
    exact ⟨(hrest g (hnb g ho)).trans ho, hp⟩
  · obtain ⟨hcd, hc⟩ := Finset.mem_erase.1 hc
    rcases hpte c v ((hdirs c).2 ⟨hc, fun he => hcd he.1⟩) hv with ⟨he, -⟩ | ⟨he, -⟩
    · exact he
    · exact absurd he hcd
  · refine (hrest g fun hb => ?_).trans hg
    obtain ⟨q', hq'⟩ := hb.table h.tables hg
    obtain ⟨hcd, hqq⟩ := Role.node.inj (hg.symm.trans hq')
    exact hne ⟨hcd, q', hqq.symm⟩

/-- An entry that leads to a table leads from the place above it. -/
theorem above (h : FrameUse dirs S m role) (hg : role g = .node c q) (hi : i < sv39.width q.length)
    (hv : pteValid (m.frame g i)) (ht : role (ptePpn (m.frame g i)) = .node d p) : d = c ∧ p = q ++ [i] := by
  rcases Nat.lt_or_ge q.length 2 with hl | hl
  · have hchild : role (ptePpn (m.frame g i)) = .node c (q ++ [i]) := h.tables.child g c q i hg hl hi hv
    exact Role.node.inj (ht.symm.trans hchild)
  · have hleaf : role (ptePpn (m.frame g i)) = .leaf :=
      h.tables.leaf g c q i hg (Nat.le_antisymm (h.paged.tables.length_le hg) hl) hi hv
    rw [ht] at hleaf
    cases hleaf

/-- A table below a page directory is given back, and its entry is cleared. -/
theorem cutTable (h : FrameUse dirs S m role) (hf : role f = .node d (p ++ [i])) (he : role e = .node d p) :
    ∃ role', FrameUse dirs S ((m.freePage f).setEntry e i 0) role' ∧
      Spares (dirs.erase d) m ((m.freePage f).setEntry e i 0) ∧ ∀ g c q, role g = .node c q → ¬ (c = d ∧ p ++ [i] <+: q) → role' g = .node c q := by
  obtain ⟨-, hi, e', he', hv, htarget⟩ := h.paged.tables.parent f d p i hf
  obtain rfl := h.paged.tables.inj he he'
  have hother (g : Nat) (hg : g ≠ e) : ((m.freePage f).setEntry e i 0).frame g = m.frame g :=
    setEntry_frame_of_ne _ _ _ hg
  refine h.cut hf (fun c => ?_) (fun g c q j hg hj hn => ?_) (fun g c q j hg hj hvj ht => ?_) (fun g hg => ?_)
    (fun c hc j hj => ?_) rfl rfl rfl
  · simp
  · by_cases hge : g = e
    · subst hge
      have hji : j ≠ i := by
        rintro rfl
        refine hn hv ?_
        rwa [show ptePpn (m.frame g j) = f from htarget]
      rw [setEntry_frame_self]
      exact Function.update_of_ne hji ..
    · rw [hother g hge]
  · obtain ⟨rfl, hpq⟩ := h.above hg hj hvj ht
    obtain ⟨rfl, hij⟩ := List.append_inj' hpq rfl
    obtain rfl := List.singleton_injective hij
    obtain rfl := h.paged.tables.inj hg he
    rw [setEntry_frame_self, Function.update_self]
    rfl
  · refine hother g ?_
    rintro rfl
    exact hg d p he
  · by_cases hce : c = e
    · subst hce
      obtain ⟨-, rfl⟩ := Role.node.inj (((h.root c).2 hc).symm.trans he)
      rw [setEntry_frame_self]
      exact Function.update_of_ne (Nat.ne_of_gt (Nat.lt_of_lt_of_le hi hj)) ..
    · rw [hother c hce]

/-- A page directory is given back. -/
theorem cutRoot (h : FrameUse dirs S m role) (hd : d ∈ dirs) :
    ∃ role', FrameUse (dirs.erase d) S (m.freePage d) role' ∧ Spares (dirs.erase d) m (m.freePage d) := by
  have hf : role d = .node d [] := (h.root d).2 hd
  have hdirs (c : Nat) : c ∈ dirs.erase d ↔ c ∈ dirs ∧ ¬ (c = d ∧ ([] : List Nat) = []) := by
    rw [Finset.mem_erase, and_comm, eq_self_iff_true, and_true]
  have hclear (g c : Nat) (q : List Nat) (j : Nat) (hg : role g = .node c q) (hj : j < sv39.width q.length)
      (hv : pteValid (m.frame g j)) (ht : role (ptePpn (m.frame g j)) = .node d []) :
      pteValid ((m.freePage d).frame g j) = false := by
    obtain ⟨-, hq⟩ := h.above hg hj hv ht
    simp at hq
  obtain ⟨role', h', hs, -⟩ : ∃ role', FrameUse (dirs.erase d) S (m.freePage d) role' ∧ _ :=
    h.cut hf hdirs (fun _ _ _ _ _ _ _ => rfl) hclear (fun _ _ => rfl) (fun _ _ _ _ => rfl) rfl rfl rfl
  exact ⟨role', h', hs⟩

end FrameUse

end

end UCore
