import UCore.Mm.FrameCut
import UCore.Mm.RangeLoop

namespace UCore
set_option autoImplicit true
open Function (update)

section
variable {A : PhysSys} {m m' : Mem A} {role : Nat → Role} {dirs kept : Finset Nat} {S : Nat → Prop}

theorem kva_some (h : kva p = some f) : p = f := by
  unfold kva at h
  split at h
  · exact Option.some.inj h
  · cases h

namespace FrameUse

/-- A loop over the pages of a range keeps what its body keeps. -/
theorem onPages {body : Mem A → Nat → Nat → Nat → Option (Bool × Mem A)}
    (hbody : ∀ {m m' : Mem A} {role : Nat → Role} {la pt go}, FrameUse dirs S m role → vpn la < userVpn →
      role pt = .node c (vpath (vpn la)) → body m la pt (vpn la % 2 ^ 9) = some (go, m') →
      ∃ role', FrameUse dirs S m' role' ∧ Spares kept m m')
    (h : FrameUse dirs S m role) (hc : c ∈ dirs) (hl : ∀ la ∈ l, vpn la < userVpn)
    (hr : forEach (Mem.pageStep body c) m l = some (go, m')) : ∃ role', FrameUse dirs S m' role' ∧ Spares kept m m' := by
  induction l generalizing m role with
  | nil =>
    cases hr
    exact ⟨role, h, .refl ..⟩
  | cons la l ih =>
    obtain ⟨⟨go₁, m₁⟩, hs, hr⟩ := Option.bind_eq_some_iff.1 hr
    obtain ⟨role₁, h₁, hs₁⟩ : ∃ role₁, FrameUse dirs S m₁ role₁ ∧ Spares kept m m₁ := by
      rcases pageStep_cases h.paged ((h.root c).2 hc) (hl la (List.mem_cons_self ..)) hs with ⟨-, rfl, -⟩ | ⟨pt, hpt, hb⟩
      · exact ⟨role, h, .refl ..⟩
      · exact hbody h (hl la (List.mem_cons_self ..)) hpt hb
    dsimp only at hr
    split at hr
    · obtain ⟨role', h', hs⟩ := ih h₁ (fun la hm => hl la (List.mem_cons_of_mem _ hm)) hr
      exact ⟨role', h', hs₁.trans hs⟩
    · cases hr
      exact ⟨role₁, h₁, hs₁⟩

theorem unmapRange (h : FrameUse dirs S m role) (hd : d ∈ dirs) (hr : m.unmapRange d start stop = some m') :
    ∃ role', FrameUse dirs S m' role' ∧ Spares (dirs.erase d) m m' := by
  obtain ⟨hs, he, hu, hr⟩ := onRange_eq_some hr
  obtain ⟨⟨go, m₁⟩, hloop, rfl⟩ := Option.map_eq_some_iff.1 hr
  rw [rangeLoop_eq _ hs he hu.2.1] at hloop
  refine h.onPages (fun {m m' role la pt go} h hv hpt hb => ?_) hd (fun la hm => (vpn_pagesOf hu hs he hm).1) hloop
  obtain ⟨m₂, hb, he⟩ := Option.map_eq_some_iff.1 hb
  cases he
  split at hb
  · exact h.removeAt hpt hv hb
  · cases hb
    exact ⟨role, h, .refl ..⟩

/-- One page of `copy_range`. -/
theorem copyPage (h : FrameUse dirs S m role) (hd : d ∈ dirs) (hv : vpn la < userVpn)
    (hr : Mem.copyPage d m la pt i = some (go, m')) : ∃ role', FrameUse dirs S m' role' ∧ Spares (dirs.erase d) m m' := by
  unfold Mem.copyPage at hr
  split at hr
  · obtain ⟨⟨slot, m₁⟩, hg, hr⟩ := Option.bind_eq_some_iff.1 hr
    obtain ⟨role₁, h₁, hs₁, -⟩ := h.getPte hd hv hg
    have hs₁ := hs₁.mono (Finset.erase_subset d dirs)
    cases slot with
    | none =>
      cases hr
      exact ⟨role₁, h₁, hs₁⟩
    | some slot =>
      dsimp only at hr
      split at hr
      · obtain ⟨page, -, hr⟩ := Option.bind_eq_some_iff.1 hr
        obtain ⟨⟨new, m₂⟩, ha, hr⟩ := Option.bind_eq_some_iff.1 hr
        rcases h₁.allocPage ha with ⟨rfl, -, -⟩ | ⟨t, s, rfl, -, rfl, h₂, ht⟩
        · cases hr
        · obtain ⟨src, -, hr⟩ := Option.bind_eq_some_iff.1 hr
          obtain ⟨dst, hdst, hr⟩ := Option.bind_eq_some_iff.1 hr
          obtain ⟨⟨ok, m₃⟩, hi, hr⟩ := Option.bind_eq_some_iff.1 hr
          obtain rfl : t = dst := kva_some hdst
          have ht' := ht.write h₂.toCounted ((m₁.setPhys s).frame src)
          have hs₂ := h₂.spares_write ht.leaf ((m₁.setPhys s).frame src) (Finset.erase_subset d dirs) fun x hx =>
            ht.unmapped x (userSlots_mono (Finset.erase_subset d dirs) hx)
          obtain ⟨role₃, h₃, hs₃, -⟩ := (h₂.write ht.leaf _).pageInsert ht' hd hv (permBits_ptePerm _) hi
          cases ok with
          | false => cases hr
          | true =>
            cases hr
            have hp : Spares (dirs.erase d) m₁ (m₁.setPhys s) := .of_frame rfl
            exact ⟨role₃, h₃, ((hs₁.trans hp).trans hs₂).trans hs₃⟩
      · cases hr
  · cases hr
    exact ⟨role, h, .refl ..⟩

theorem copyRange (h : FrameUse dirs S m role) (hc : c ∈ dirs) (hd : d ∈ dirs)
    (hr : m.copyRange d c start stop = some (go, m')) : ∃ role', FrameUse dirs S m' role' ∧ Spares (dirs.erase d) m m' := by
  obtain ⟨hs, he, hu, hloop⟩ := onRange_eq_some hr
  rw [rangeLoop_eq _ hs he hu.2.1] at hloop
  exact h.onPages (fun h hv _ hb => h.copyPage hd hv hb) hc (fun la hm => (vpn_pagesOf hu hs he hm).1) hloop

/-- The slots of a directory page that lead to empty tables are cleared. -/
theorem exitSlots (h : FrameUse dirs S m role) (hg : role g = .node d [i])
    (hr : m.exitSlots g d1start stop a fl fuel = some (fl', m')) :
    ∃ role', FrameUse dirs S m' role' ∧ Spares (dirs.erase d) m m' ∧ role' g = .node d [i] := by
  induction fuel generalizing m role a fl with
  | zero => cases hr
  | succ fuel ih =>
    obtain ⟨⟨fl₁, m₁⟩, hb, hr⟩ := Option.bind_eq_some_iff.1 hr
    obtain ⟨role₁, h₁, hs₁, hg₁⟩ : ∃ role₁, FrameUse dirs S m₁ role₁ ∧ Spares (dirs.erase d) m m₁ ∧
        role₁ g = .node d [i] := by
      split at hb
      · rename_i hv
        obtain ⟨pt, hpt, hb⟩ := Option.bind_eq_some_iff.1 hb
        split at hb
        · cases hb
          obtain rfl := kva_some hpt
          have hj : pdx0 a < sv39.width [i].length := Nat.mod_lt _ (by decide)
          have hchild : role (ptePpn (m.frame g (pdx0 a))) = .node d ([i] ++ [pdx0 a]) :=
            h.tables.child g d [i] _ hg (show 1 < 2 by decide) hj hv
          obtain ⟨role₁, h₁, hs₁, hkeep⟩ := h.cutTable hchild hg
          exact ⟨role₁, h₁, hs₁, hkeep g d [i] hg (by simp)⟩
        · cases hb
          exact ⟨role, h, .refl .., hg⟩
      · cases hb
        exact ⟨role, h, .refl .., hg⟩
    dsimp only at hr
    split at hr
    · obtain ⟨role', h', hs, hg'⟩ := ih h₁ hg₁ hr
      exact ⟨role', h', hs₁.trans hs, hg'⟩
    · cases hr
      exact ⟨role₁, h₁, hs₁, hg₁⟩

/-- The regions of a range, from the one at `d1start` on. -/
theorem exitLoop (h : FrameUse dirs S m role) (hd : d ∈ dirs) (hlt : d1start < stop) (hs : stop ≤ userTop)
    (hr : m.exitLoop d stop d1start d0start fuel = some m') :
    ∃ role', FrameUse dirs S m' role' ∧ Spares (dirs.erase d) m m' := by
  induction fuel generalizing m role d1start d0start with
  | zero => cases hr
  | succ fuel ih =>
    obtain ⟨m₁, hb, hr⟩ := Option.bind_eq_some_iff.1 hr
    obtain ⟨role₁, h₁, hs₁⟩ : ∃ role₁, FrameUse dirs S m₁ role₁ ∧ Spares (dirs.erase d) m m₁ := by
      split at hb
      · rename_i hv
        obtain ⟨g, hg, hb⟩ := Option.bind_eq_some_iff.1 hb
        obtain ⟨⟨fl, m₂⟩, hslots, hb⟩ := Option.bind_eq_some_iff.1 hb
        obtain rfl := kva_some hg
        have hroot := (h.root d).2 hd
        have hi : pdx1 d1start < sv39.width ([] : List Nat).length := by
          show pdx1 d1start < 256
          unfold userTop at hs
          unfold pdx1
          omega
        have hchild : role (ptePpn (m.frame d (pdx1 d1start))) = .node d ([] ++ [pdx1 d1start]) :=
          h.tables.child d d [] _ hroot (show 0 < 2 by decide) hi hv
        obtain ⟨role₂, h₂, hs₂, hg₂⟩ := h.exitSlots hchild hslots
        dsimp only at hb
        split at hb
        · cases hb
          obtain ⟨role₃, h₃, hs₃, -⟩ := h₂.cutTable hg₂ ((h₂.root d).2 hd)
          exact ⟨role₃, h₃, hs₂.trans hs₃⟩
        · cases hb
          exact ⟨role₂, h₂, hs₂⟩
      · cases hb
        exact ⟨role, h, .refl ..⟩
    dsimp only at hr
    split at hr
    · rename_i hnext
      obtain ⟨role', h', hs⟩ := ih h₁ hnext.2 hr
      exact ⟨role', h', hs₁.trans hs⟩
    · cases hr
      exact ⟨role₁, h₁, hs₁⟩

theorem exitRange (h : FrameUse dirs S m role) (hd : d ∈ dirs) (hr : m.exitRange d start stop = some m') :
    ∃ role', FrameUse dirs S m' role' ∧ Spares (dirs.erase d) m m' := by
  obtain ⟨-, -, hu, hr⟩ := onRange_eq_some hr
  exact h.exitLoop hd (Nat.lt_of_le_of_lt (Nat.sub_le ..) hu.2.1) hu.2.2 hr

theorem foldlM {f : Mem A → Vma → Option (Mem A)} {l : List Vma}
    (hf : ∀ {m m' : Mem A} {role vma}, FrameUse dirs S m role → f m vma = some m' →
      ∃ role', FrameUse dirs S m' role' ∧ Spares kept m m')
    (h : FrameUse dirs S m role) (hr : l.foldlM f m = some m') :
    ∃ role', FrameUse dirs S m' role' ∧ Spares kept m m' := by
  induction l generalizing m role with
  | nil =>
    cases hr
    exact ⟨role, h, .refl ..⟩
  | cons vma l ih =>
    rw [List.foldlM_cons] at hr
    obtain ⟨m₁, h₁, hr⟩ := Option.bind_eq_some_iff.1 hr
    obtain ⟨role₁, h₁, hs₁⟩ := hf h h₁
    obtain ⟨role', h', hs⟩ := ih h₁ hr
    exact ⟨role', h', hs₁.trans hs⟩

theorem exitMmap (h : FrameUse dirs S m role) (hpg : (m.mms mm).pgdir = some d) (hd : d ∈ dirs)
    (hr : m.exitMmap mm = some m') : ∃ role', FrameUse dirs S m' role' ∧ Spares (dirs.erase d) m m' := by
  unfold Mem.exitMmap at hr
  split at hr
  · obtain ⟨c, hc, hr⟩ := Option.bind_eq_some_iff.1 hr
    obtain rfl := Option.some.inj (hc.symm.trans hpg)
    obtain ⟨m₁, h₁, hr⟩ := Option.bind_eq_some_iff.1 hr
    obtain ⟨role₁, h₁, hs₁⟩ := foldlM (fun h hr => h.unmapRange hd hr) h h₁
    obtain ⟨role', h', hs⟩ := foldlM (fun h hr => h.exitRange hd hr) h₁ hr
    exact ⟨role', h', hs₁.trans hs⟩
  · cases hr

theorem putPgdir (h : FrameUse dirs S m role) (hpg : (m.mms mm).pgdir = some d) (hd : d ∈ dirs)
    (hr : m.putPgdir mm = some m') : ∃ role', FrameUse (dirs.erase d) S m' role' ∧ Spares (dirs.erase d) m m' := by
  obtain ⟨c, hc, hr⟩ := Option.bind_eq_some_iff.1 hr
  cases hr
  obtain rfl := Option.some.inj (hc.symm.trans hpg)
  exact h.cutRoot hd

end FrameUse

end

end UCore
