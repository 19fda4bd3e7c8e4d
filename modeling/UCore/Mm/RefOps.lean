import UCore.Mm.RefSpec

namespace UCore
set_option autoImplicit true
open Function (update)

section
variable {A : PhysSys} {m m' : Mem A} {role : Nat → Role} {dirs : Finset Nat} {K : Nat → Prop}

/-- The allocator has given out a page for a leaf. -/
theorem Counted.alloc (h : Counted dirs K m role) (ha : A.allocPages m.phys 1 = (some t, s)) :
    Counted dirs K (m.setPhys s) (update role t .leaf) ∧ Quiet dirs m (m.setPhys s) := by
  have hfree := h.alloc_free ha
  have hpaged : Paged (m.setPhys s) (update role t .leaf) :=
    h.toPaged.alloc ha (by simp) (fun _ _ => rfl)
      (h.tables.setRole (by rw [hfree]; simp) (by simp) fun _ _ _ _ _ _ _ _ _ => rfl)
  constructor
  · refine h.retag hpaged rfl (.inl hfree) (.inr rfl) (fun _ => rfl) (fun _ _ => rfl) fun _ => ?_
    rw [h.count_eq_zero (by rw [hfree]; simp)]
    exact h.unused t hfree
  · exact ⟨fun _ => rfl, fun p hp => ((A.allocPages_free ha).1 hp).1⟩

/-- The contents of a leaf do not matter. -/
theorem Counted.paged_write (h : Counted dirs K m role) (ht : role t = .leaf) (w : Words) :
    Paged (m.setFrame t w) role ∧ ∀ f d p, role f = .node d p → (m.setFrame t w).frame f = m.frame f := by
  have hframe (f d : Nat) (p : List Nat) (hf : role f = .node d p) : (m.setFrame t w).frame f = m.frame f := by
    apply Function.update_of_ne
    rintro rfl
    rw [ht] at hf
    cases hf
  exact ⟨⟨h.tables.congr hframe, h.free, h.pool, h.unused⟩, hframe⟩

theorem Counted.pteAt_write (h : Counted dirs K m role) (ht : role t = .leaf) (w : Words) (hd : d ∈ dirs)
    (hv : v < userVpn) : (m.setFrame t w).pteAt d v = m.pteAt d v := by
  obtain ⟨hpaged, hframe⟩ := h.paged_write ht w
  exact h.pteAt_congr hpaged (fun _ _ => Iff.rfl) (fun f => hframe f d) ((h.root d).2 hd) hv

theorem Counted.write (h : Counted dirs K m role) (ht : role t = .leaf) (w : Words) :
    Counted dirs K (m.setFrame t w) role ∧ Quiet dirs m (m.setFrame t w) := by
  have hcount (p : Nat) : (m.setFrame t w).mapCount dirs p = m.mapCount dirs p :=
    mapCount_congr (fun d hd v hv => h.pteAt_write ht w hd hv) p
  refine ⟨⟨(h.paged_write ht w).1, h.off, h.root, h.kernel, fun p hp => ?_⟩, hcount, fun _ hp => hp⟩
  rw [hcount, ← h.exact p hp]
  rfl

theorem Counted.pgdirAllocPage (h : Counted dirs K m role) (hd : d ∈ dirs) (hv : vpn la < userVpn)
    (hb : PermBits perm) (hg : m.pgdirAllocPage d la perm = some (r, m')) :
    ∃ role', Counted dirs K m' role' ∧ m.Frees dirs m' := by
  obtain ⟨⟨r₁, m₁⟩, hpage, hg⟩ := Option.bind_eq_some_iff.1 hg
  cases allocPages_plain h.plain hpage with
  | inl hno =>
    obtain ⟨rfl, rfl⟩ := hno
    cases hg
    obtain ⟨hc, hquiet⟩ := h.tabled (.fail d h.toPaged) hd
    exact ⟨role, hc, hquiet.frees_self⟩
  | inr hok =>
    obtain ⟨t, s, rfl, ha, rfl⟩ := hok
    obtain ⟨h₁, hq₁⟩ := h.alloc ha
    obtain ⟨⟨ok, m₂⟩, hi, hg⟩ := Option.bind_eq_some_iff.1 hg
    obtain ⟨role₂, h₂, hfrees, hfail⟩ := h₁.pageInsert hd hv hb (Function.update_self ..) hi
    cases ok with
    | false =>
      cases hg
      obtain ⟨hq₂, ht⟩ := hfail rfl
      have hfree := h.alloc_free ha
      have hq := hq₁.trans hq₂
      obtain ⟨h₃, hsame⟩ := h₂.freePage ht (by rw [hq.count, h.count_eq_zero (by rw [hfree]; simp)])
      refine ⟨_, h₃, Quiet.frees_self ⟨fun p => (hsame p).trans (hq.count p), fun p hp => ?_⟩⟩
      rw [← h₃.free] at hp
      by_cases hpt : p = t
      · rw [hpt, ← h.free]
        exact hfree
      · rw [Function.update_of_ne hpt, h₂.free] at hp
        exact hq.free p hp
    | true =>
      dsimp only at hg
      rw [if_neg (by rw [h₂.off]; simp)] at hg
      cases hg
      exact ⟨role₂, h₂, hq₁.frees hfrees⟩

theorem Counted.pageRemove (h : Counted dirs K m role) (hd : d ∈ dirs) (hv : vpn la < userVpn)
    (hr : m.pageRemove d la = some m') : ∃ role', Counted dirs K m' role' ∧ m.Frees dirs m' := by
  unfold Mem.pageRemove at hr
  rw [getPte_false, h.pteSlot_eq ((h.root d).2 hd) hv] at hr
  cases hw : sv39.walk m.frame d (vpath (vpn la)) with
  | none =>
    rw [hw] at hr
    cases hr
    exact ⟨role, h, (Quiet.refl ..).frees_self⟩
  | some pt =>
    rw [hw] at hr
    obtain ⟨role', hrem⟩ := h.pageRemovePte ((h.walk_iff ((h.root d).2 hd) hv).1 hw) hv hr
    exact ⟨role', hrem.toCounted, hrem.frees⟩

/-- A page of `unmap_range`. -/
theorem Counted.unmapPage (h : Counted dirs K m role) (hd : d ∈ dirs) (hv : vpn la < userVpn)
    (hs : Mem.pageStep Mem.unmapPage d m la = some (ok, m')) :
    ∃ role', Counted dirs K m' role' ∧ m.Frees dirs m' := by
  cases pageStep_cases h.toPaged ((h.root d).2 hd) hv hs with
  | inl hnone =>
    obtain ⟨-, rfl, -⟩ := hnone
    exact ⟨role, h, (Quiet.refl ..).frees_self⟩
  | inr hslot =>
    obtain ⟨pt, hpt, hu⟩ := hslot
    obtain ⟨m₁, hm, hu⟩ := Option.map_eq_some_iff.1 hu
    cases hu
    split at hm
    · obtain ⟨role', hrem⟩ := h.pageRemovePte hpt hv hm
      exact ⟨role', hrem.toCounted, hrem.frees⟩
    · cases hm
      exact ⟨role, h, (Quiet.refl ..).frees_self⟩

/-- A page of `copy_range`, between any directories. -/
theorem Counted.copyPage (h : Counted dirs K m role) (hd : d ∈ dirs) (hc : c ∈ dirs)
    (hv : vpn la < userVpn) (hs : Mem.pageStep (Mem.copyPage d) c m la = some (ok, m')) :
    ∃ role', Counted dirs K m' role' ∧ m.Frees dirs m' := by
  cases pageStep_cases h.toPaged ((h.root c).2 hc) hv hs with
  | inl hnone =>
    obtain ⟨-, rfl, -⟩ := hnone
    exact ⟨role, h, (Quiet.refl ..).frees_self⟩
  | inr hslot =>
    obtain ⟨pt, hpt, hg⟩ := hslot
    unfold Mem.copyPage at hg
    split at hg
    · obtain ⟨⟨r, m₁⟩, hget, hg⟩ := Option.bind_eq_some_iff.1 hg
      obtain ⟨role₁, ht, -, -⟩ := getPte_spec h.toPaged h.plain ((h.root d).2 hd) hv hget
      obtain ⟨h₁, hq₁⟩ := h.tabled ht hd
      cases r with
      | none =>
        cases hg
        exact ⟨role₁, h₁, hq₁.frees_self⟩
      | some slot =>
        dsimp only at hg
        split at hg
        · obtain ⟨page, hk, hg⟩ := Option.bind_eq_some_iff.1 hg
          obtain ⟨⟨r₂, m₂⟩, hpage, hg⟩ := Option.bind_eq_some_iff.1 hg
          cases allocPages_plain h₁.plain hpage with
          | inl hno =>
            obtain ⟨rfl, rfl⟩ := hno
            cases hg
          | inr hok =>
            obtain ⟨t, s, rfl, ha, rfl⟩ := hok
            obtain ⟨h₂, hq₂⟩ := h₁.alloc ha
            have ht₂ : update role₁ t .leaf t = .leaf := Function.update_self ..
            have hkt : kva t = some t := h₂.kva (by rw [ht₂]; simp)
            obtain ⟨src, -, hg⟩ := Option.bind_eq_some_iff.1 hg
            obtain ⟨dst, hdst, hg⟩ := Option.bind_eq_some_iff.1 hg
            obtain rfl := Option.some.inj (hdst.symm.trans hkt)
            obtain ⟨⟨b, m₃⟩, hi, hg⟩ := Option.bind_eq_some_iff.1 hg
            obtain ⟨h₃, hq₃⟩ := h₂.write ht₂ ((m₁.setPhys s).frame src)
            obtain ⟨role₄, h₄, hfrees, -⟩ := h₃.pageInsert hd hv (permBits_ptePerm _) ht₂ hi
            cases b with
            | false => cases hg
            | true =>
              cases hg
              exact ⟨role₄, h₄, ((hq₁.trans hq₂).trans hq₃).frees hfrees⟩
        · cases hg
    · cases hg
      exact ⟨role, h, (Quiet.refl ..).frees_self⟩

end

end UCore
