import UCore.Mm.PageInsert
import UCore.Mm.RangeLoop
import UCore.Mm.VmmSpec

namespace UCore
set_option autoImplicit true
open Function (update)

/-- The pages with the numbers `S` have been copied from the directory `c` to the directory `d`, which has
nothing else in its user half. -/
structure Cloned {A : PhysSys} (c d : Nat) (S : Nat → Prop) (m m' : Mem A) (role role' : Nat → Role) : Prop
    extends Adds d m m' role role' where
  copied : ∀ v < userVpn, S v → pteValid (m.pteAt c v) →
    pteValid (m'.pteAt d v) ∧ ptePerm (m'.pteAt d v) = ptePerm (m.pteAt c v) ∧
      m'.frame (ptePpn (m'.pteAt d v)) = m.frame (ptePpn (m.pteAt c v))
  rest : ∀ v < userVpn, ¬ (S v ∧ pteValid (m.pteAt c v)) → m'.pteAt d v = 0
  new : ∀ v < userVpn, pteValid (m'.pteAt d v) →
    role (ptePpn (m'.pteAt d v)) = .free ∧ m'.ref (ptePpn (m'.pteAt d v)) = 1
  inj : ∀ v < userVpn, ∀ w < userVpn, pteValid (m'.pteAt d v) → pteValid (m'.pteAt d w) →
    ptePpn (m'.pteAt d v) = ptePpn (m'.pteAt d w) → v = w

section
variable {A : PhysSys} {m m' m'' : Mem A} {role role' role'' : Nat → Role} {S S' : Nat → Prop}

theorem Cloned.init (h : Paged m role) (he : ∀ v < userVpn, m.pteAt d v = 0) :
    Cloned c d (fun _ => False) m m role role where
  toAdds := .refl d h
  copied _ _ hs := hs.elim
  rest v hv _ := he v hv
  new v hv hn := by
    rw [he v hv] at hn
    cases hn
  inj v hv _ _ hn := by
    rw [he v hv] at hn
    cases hn

theorem Cloned.congr (h : Cloned c d S m m' role role') (hs : ∀ v < userVpn, S v ↔ S' v) :
    Cloned c d S' m m' role role' where
  toAdds := h.toAdds
  copied v hv hn := h.copied v hv ((hs v hv).2 hn)
  rest v hv hn := h.rest v hv fun hc => hn ⟨(hs v hv).1 hc.1, hc.2⟩
  new := h.new
  inj := h.inj

theorem Cloned.valid (h : Cloned c d S m m' role role') (hv : v < userVpn) (hn : pteValid (m'.pteAt d v)) :
    S v ∧ pteValid (m.pteAt c v) := by
  by_contra hc
  rw [h.rest v hv hc] at hn
  cases hn

/-- What is added to the tree without new mappings leaves the copy as it is. -/
theorem Cloned.adds (h : Cloned c d S m m' role role') (ha : Adds d m' m'' role' role'')
    (hd : role d = .node d []) (hsame : ∀ v < userVpn, m''.pteAt d v = m'.pteAt d v) :
    Cloned c d S m m'' role role'' := by
  have hleaf (v : Nat) (hv : v < userVpn) (hn : pteValid (m'.pteAt d v)) :
      role' (ptePpn (m'.pteAt d v)) = .leaf :=
    h.paged.mapped ((h.keeps d (by rw [hd]; simp)).trans hd) hv hn
  refine ⟨h.toAdds.trans ha, fun v hv hs hn => ?_, fun v hv hn => ?_, fun v hv hn => ?_, fun v hv w hw => ?_⟩
  · obtain ⟨h₁, h₂, h₃⟩ := h.copied v hv hs hn
    have hl := hleaf v hv h₁
    rw [hsame v hv, ha.frame _ (by rw [hl]; simp) (by rw [hl]; simp)]
    exact ⟨h₁, h₂, h₃⟩
  · rw [hsame v hv]
    exact h.rest v hv hn
  · rw [hsame v hv] at hn ⊢
    rw [ha.ref _ (by rw [hleaf v hv hn]; simp)]
    exact h.new v hv hn
  · rw [hsame v hv, hsame w hw]
    exact h.inj v hv w hw

/-- The copy of one more page. -/
theorem Cloned.gains (h : Cloned c d S m m' role role') (hg : Gains d v t e m' m'' role' role'')
    (hd : role d = .node d []) (hv : v < userVpn) (hval : pteValid (m.pteAt c v)) (hev : pteValid e)
    (het : ptePpn e = t) (hep : ptePerm e = ptePerm (m.pteAt c v))
    (hf : m''.frame t = m.frame (ptePpn (m.pteAt c v))) :
    Cloned c d (fun w => S w ∨ w = v) m m'' role role'' := by
  have hleaf (w : Nat) (hw : w < userVpn) (hn : pteValid (m'.pteAt d w)) :
      role' (ptePpn (m'.pteAt d w)) = .leaf :=
    h.paged.mapped ((h.keeps d (by rw [hd]; simp)).trans hd) hw hn
  have hne (w : Nat) (hw : w < userVpn) (hn : pteValid (m'.pteAt d w)) : ptePpn (m'.pteAt d w) ≠ t := by
    intro hc
    have hl := hleaf w hw hn
    rw [hc, hg.free] at hl
    cases hl
  refine ⟨h.toAdds.trans hg.adds, fun w hw hs hn => ?_, fun w hw hn => ?_, fun w hw hn => ?_,
    fun w hw x hx hn hxn heq => ?_⟩
  · by_cases hwv : w = v
    · subst hwv
      rw [hg.new, het]
      exact ⟨hev, hep, hf⟩
    · obtain ⟨h₁, h₂, h₃⟩ := h.copied w hw (hs.resolve_right hwv) hn
      have hl := hleaf w hw h₁
      rw [hg.same w hw hwv, hg.frame _ (by rw [hl]; simp) (by rw [hl]; simp)]
      exact ⟨h₁, h₂, h₃⟩
  · have hwv : w ≠ v := by
      rintro rfl
      exact hn ⟨.inr rfl, hval⟩
    rw [hg.same w hw hwv]
    exact h.rest w hw fun hc => hn ⟨.inl hc.1, hc.2⟩
  · by_cases hwv : w = v
    · subst hwv
      rw [hg.new, het]
      refine ⟨?_, hg.refOne⟩
      by_contra hr
      rw [← h.keeps t hr] at hr
      exact hr hg.free
    · rw [hg.same w hw hwv] at hn ⊢
      rw [hg.ref _ (by rw [hleaf w hw hn]; simp)]
      exact h.new w hw hn
  · by_cases hwv : w = v
    · by_cases hxv : x = v
      · rw [hwv, hxv]
      · subst hwv
        rw [hg.same x hx hxv] at hxn heq
        rw [hg.new, het] at heq
        exact absurd heq.symm (hne x hx hxn)
    · by_cases hxv : x = v
      · subst hxv
        rw [hg.same w hw hwv] at hn heq
        rw [hg.new, het] at heq
        exact absurd heq (hne w hw hn)
      · rw [hg.same w hw hwv] at hn heq
        rw [hg.same x hx hxv] at hxn heq
        exact h.inj w hw x hx hn hxn heq

/-- A page that is not mapped is copied by leaving it out. -/
theorem Cloned.skip (h : Cloned c d S m m' role role') (hn : pteValid (m.pteAt c v) = false) :
    Cloned c d (fun w => S w ∨ w = v) m m' role role' := by
  have hne (w : Nat) (hw : pteValid (m.pteAt c w)) : w ≠ v := by
    rintro rfl
    rw [hn] at hw
    cases hw
  refine ⟨h.toAdds, fun w hw hs hval => ?_, fun w hw hc => ?_, h.new, h.inj⟩
  · exact h.copied w hw (hs.resolve_right (hne w hval)) hval
  · exact h.rest w hw fun hs => hc ⟨.inl hs.1, hs.2⟩

/-- One round of `copy_range`, for a page that has not been copied yet. -/
theorem Cloned.page (h : Cloned c d S m m' role role') (hm : Paged m role) (hp : m.Plain)
    (hc : role c = .node c []) (hd : role d = .node d []) (hcd : c ≠ d) (hv : vpn la < userVpn)
    (hs : ¬ S (vpn la)) (hg : Mem.pageStep (Mem.copyPage d) c m' la = some (ok, m'')) :
    ∃ role'', SameVars m' m'' ∧
      if ok then Cloned c d (fun w => S w ∨ w = vpn la) m m'' role role'' ∧ m'.oom ≤ m''.oom
      else Cloned c d S m m'' role role'' ∧ m'.oom < m''.oom := by
  have hc' := (h.keeps c (by rw [hc]; simp)).trans hc
  have hd' := (h.keeps d (by rw [hd]; simp)).trans hd
  have hsrc : m'.pteAt c (vpn la) = m.pteAt c (vpn la) := h.toAdds.other hm hc hcd hv
  cases pageStep_cases h.paged hc' hv hg with
  | inl hnone =>
    obtain ⟨rfl, rfl, hno⟩ := hnone
    refine ⟨role', .refl _, h.skip ?_, Nat.le_refl _⟩
    rw [← hsrc, h.paged.pteAt_none hc' hv hno]
    rfl
  | inr hslot =>
    obtain ⟨pt, hpt, hg⟩ := hslot
    have hfree : pteValid (m'.pteAt d (vpn la)) = false := by
      rw [h.rest _ hv fun hc => hs hc.1]
      rfl
    cases copyPage_spec h.paged (h.toAdds.plain hp) hd' hv hfree hpt hcd hg with
    | inl hfail =>
      obtain ⟨rfl, hoom, role'', ht⟩ := hfail
      exact ⟨role'', ht.vars, h.adds ht.adds hd ht.same, hoom⟩
    | inr hok =>
      obtain ⟨rfl, hok⟩ := hok
      rw [hsrc] at hok
      split at hok
      · rename_i hval
        obtain ⟨t, role'', hgain, hframe⟩ := hok
        have hleaf := hm.mapped hc hv hval
        rw [h.frame _ (by rw [hleaf]; simp) (by rw [hleaf]; simp)] at hframe
        have ht : role'' t ≠ .other := by
          rw [(hgain.leaf t).2 (.inr rfl)]
          simp
        have hbits : PermBits (pteV ||| ptePerm (m.pteAt c (vpn la))) := (permBits_ptePerm _).valid
        exact ⟨role'', hgain.vars, h.gains hgain hd hv hval (pteValid_create ..)
          (hgain.paged.ppn_create ht hbits) (ptePerm_copy_valid hval) hframe, hgain.oom⟩
      · rename_i hval
        subst hok
        exact ⟨role', .refl _, h.skip (Bool.eq_false_iff.2 hval), Nat.le_refl _⟩

/-- `copy_range` over pages that have not been copied yet. -/
theorem Cloned.range (h : Cloned c d S m m' role role') (hm : Paged m role) (hp : m.Plain)
    (hc : role c = .node c []) (hd : role d = .node d []) (hcd : c ≠ d)
    (hs : ∀ v, S v → ¬ (start ≤ v * pgSize ∧ v * pgSize < stop))
    (hr : m'.copyRange d c start stop = some (ok, m'')) :
    ∃ role'' S', SameVars m' m'' ∧ Cloned c d S' m m'' role role'' ∧
      (∀ v, S' v → S v ∨ start ≤ v * pgSize ∧ v * pgSize < stop) ∧
      if ok then ∀ v, S v ∨ start ≤ v * pgSize ∧ v * pgSize < stop → S' v else m'.oom < m''.oom := by
  obtain ⟨hs₁, hs₂, hu, hr⟩ := onRange_eq_some hr
  rw [rangeLoop_eq _ hs₁ hs₂ hu.2.1] at hr
  have hinv := forEach_inv
    (fun done m₁ => ∃ role₁, Cloned c d (fun v => S v ∨ ∃ la ∈ done, vpn la = v) m m₁ role role₁ ∧
      SameVars m' m₁ ∧ m'.oom ≤ m₁.oom)
    (fun m₁ => ∃ role₁ S', Cloned c d S' m m₁ role role₁ ∧
      (∀ v, S' v → S v ∨ start ≤ v * pgSize ∧ v * pgSize < stop) ∧ SameVars m' m₁ ∧ m'.oom < m₁.oom)
    ?_ ?_ hr
  · cases ok with
    | false =>
      obtain ⟨role₁, S', h₁, hsub, hvars, hoom⟩ := hinv
      exact ⟨role₁, S', hvars, h₁, hsub, hoom⟩
    | true =>
      obtain ⟨role₁, h₁, hvars, -⟩ := hinv
      refine ⟨role₁, _, hvars, h₁, fun v hv => ?_, fun v hv => ?_⟩
      · rwa [exists_mem_pagesOf hu hs₁ hs₂] at hv
      · rwa [exists_mem_pagesOf hu hs₁ hs₂]
  · rintro done a m₁ go m₂ ⟨role₁, h₁, hvars, hoom⟩ hpre hstep
    have ha : a ∈ pagesOf start stop := hpre.subset (List.mem_append_right _ (List.mem_singleton_self a))
    obtain ⟨hv, hva⟩ := vpn_pagesOf hu hs₁ hs₂ ha
    have hrange := ((mem_pagesOf hs₁ hs₂).1 ha).2
    have hnew : ¬ (S (vpn a) ∨ ∃ la ∈ done, vpn la = vpn a) := by
      rintro (hsa | ⟨la, hla, heq⟩)
      · exact hs _ hsa (by rwa [hva])
      · have hla' := (vpn_pagesOf hu hs₁ hs₂ (hpre.subset (List.mem_append_left _ hla))).2
        rw [heq, hva] at hla'
        have hnd := (nodup_pagesOf start stop).sublist hpre.sublist
        rw [hla'] at hnd
        exact (List.nodup_append.1 hnd).2.2 _ hla _ (List.mem_singleton_self _) rfl
    obtain ⟨role₂, hvars₂, h₂⟩ := h₁.page hm hp hc hd hcd hv hnew hstep
    replace hvars₂ := hvars.trans hvars₂
    cases go with
    | false =>
      obtain ⟨h₂, hlt⟩ := h₂
      refine ⟨role₂, _, h₂, fun v hsv => ?_, hvars₂, Nat.lt_of_le_of_lt hoom hlt⟩
      rcases hsv with hsv | ⟨la, hla, rfl⟩
      · exact .inl hsv
      · refine .inr ((exists_mem_pagesOf hu hs₁ hs₂).1 ⟨la, ?_, rfl⟩)
        exact hpre.subset (List.mem_append_left _ hla)
    | true =>
      obtain ⟨h₂, hle⟩ := h₂
      refine ⟨role₂, h₂.congr fun v _ => ?_, hvars₂, Nat.le_trans hoom hle⟩
      · simp only [List.mem_append, List.mem_singleton, or_assoc]
        constructor
        · rintro (hsv | ⟨la, hla, hlv⟩ | rfl)
          · exact .inl hsv
          · exact .inr ⟨la, .inl hla, hlv⟩
          · exact .inr ⟨a, .inr rfl, rfl⟩
        · rintro (hsv | ⟨la, hla | rfl, hlv⟩)
          · exact .inl hsv
          · exact .inr (.inl ⟨la, hla, hlv⟩)
          · exact .inr (.inr hlv.symm)
  · exact ⟨role', h.congr fun v _ => by simp, .refl _, Nat.le_refl _⟩

end

end UCore
