import UCore.Mm.Freed
import UCore.Mm.VmmSpec

namespace UCore
set_option autoImplicit true
open Function (update)

/-- Each page that the root `d` maps has one reference. -/
def Mem.RefOne {A : PhysSys} (m : Mem A) (d : Nat) : Prop :=
  ∀ v < userVpn, pteValid (m.pteAt d v) → m.ref (ptePpn (m.pteAt d v)) = 1

section
variable {A : PhysSys} {m m' m'' : Mem A} {role : Nat → Role}

/-- While only leaves have been freed, the tables are as they were. -/
theorem Freed.pteSlot (h : Freed d l m m' role) (hm : Paged m role) (hd : role d = .node d [])
    (hl : ∀ f ∈ l, role f = .leaf) (hv : vpn la < userVpn) : m'.pteSlot d la = m.pteSlot d la := by
  have hkept (g i : Nat) (p : List Nat) (hg : role g = .node d p) (hp : p.length < 2) :
      m'.frame g i = m.frame g i := by
    apply h.kept
    rintro ⟨hlink, hmem⟩
    obtain ⟨q, hq, -, hr⟩ := hm.linked_role hlink
    obtain ⟨-, rfl⟩ := Role.node.inj (hg.symm.trans hq)
    have hleaf := hl _ hmem
    rcases hr with ⟨-, hr⟩ | ⟨hlen, -⟩
    · rw [hleaf] at hr
      cases hr
    · omega
  have hi : pdx1 la < sv39.width ([] : List Nat).length := pdx1_eq la ▸ (vpath_inWidth hv).1
  unfold Mem.pteSlot
  rw [hkept d (pdx1 la) [] hd (by decide)]
  by_cases h₁ : pteValid (m.frame d (pdx1 la))
  · have hr : role (ptePpn (m.frame d (pdx1 la))) = .node d [pdx1 la] :=
      hm.tables.child d d [] _ hd (by decide) hi h₁
    rw [if_pos h₁, if_pos h₁, hm.kva (by rw [hr]; simp)]
    simp only [Option.bind_eq_bind, Option.bind_some]
    rw [hkept _ (pdx0 la) [pdx1 la] hr (by simp)]
  · rw [if_neg h₁, if_neg h₁]

/-- `page_remove_pte` of the last reference. -/
theorem pageRemovePte_last (hv : pteValid (m.frame g i)) (hk : ptePpn (m.frame g i) < npage)
    (hr : m.ref (ptePpn (m.frame g i)) = 1) :
    m.pageRemovePte g i = some ((m.freePage (ptePpn (m.frame g i))).setEntry g i 0) := by
  have hz : (m.setRef (ptePpn (m.frame g i)) (m.ref (ptePpn (m.frame g i)) - 1)).ref
      (ptePpn (m.frame g i)) = 0 := by
    show update _ _ _ _ = _
    rw [Function.update_self, hr]
    rfl
  simp only [Mem.pageRemovePte, if_pos hv, kva_eq hk, Option.bind_eq_bind, Option.bind_some, if_pos hz]
  simp only [Mem.setRef, Mem.freePage, Function.update_idem]

/-- `unmap_range` at one address gives back the page that is mapped there. -/
theorem Freed.unmapPage (h : Freed d l m m' role) (hm : Paged m role) (hu : m.Unshared d) (hone : m.RefOne d)
    (hd : role d = .node d []) (hl : ∀ f ∈ l, role f = .leaf) (hv : vpn la < userVpn) :
    ∃ l' m'', Mem.pageStep Mem.unmapPage d m' la = some (true, m'') ∧ Freed d l' m m'' role ∧
      ∀ f, f ∈ l' ↔ f ∈ l ∨ pteValid (m.pteAt d (vpn la)) ∧ ptePpn (m.pteAt d (vpn la)) = f := by
  unfold Mem.pageStep strideStep
  dsimp only
  rw [getPte_false, h.pteSlot hm hd hl hv, hm.pteSlot_eq hd hv]
  cases hw : sv39.walk m.frame d (vpath (vpn la)) with
  | none =>
    refine ⟨l, m', rfl, h, fun f => ?_⟩
    rw [hm.pteAt_none hd hv fun g hg => by rw [(hm.walk_iff hd hv).2 hg] at hw; cases hw]
    simp [pteValid]
  | some pt =>
    have hpt := (hm.walk_iff hd hv).1 hw
    have hi : vpn la % 2 ^ 9 < sv39.width (vpath (vpn la)).length := Nat.mod_lt _ (by decide)
    have hval := h.entry_valid hpt hi
    rw [hm.pteAt_node hpt hv]
    by_cases hv' : pteValid (m'.frame pt (vpn la % 2 ^ 9))
    · obtain ⟨hvalid, hn⟩ := hval.1 hv'
      have hlink : m.Linked role d pt (vpn la % 2 ^ 9) := ⟨⟨_, hpt, hi⟩, hvalid⟩
      have hkept : m'.frame pt (vpn la % 2 ^ 9) = m.frame pt (vpn la % 2 ^ 9) := h.kept _ _ fun hc => hn hc.2
      have href := hone _ hv (by rwa [hm.pteAt_node hpt hv])
      rw [hm.pteAt_node hpt hv] at href
      refine ⟨_, _, ?_, h.free hm hlink (fun _ => hu) hn, fun f => ?_⟩
      · rw [← hkept] at href ⊢
        have hrem := pageRemovePte_last hv' (by rw [hkept]; exact (hm.linked_pool hlink).2.1)
          ((h.ref _ (by rwa [hkept])).trans href)
        have hne : m'.frame pt (vpn la % 2 ^ 9) ≠ 0 := by
          intro hz
          rw [hz] at hv'
          cases hv'
        simp only [Option.map_some, Option.bind_some, Mem.unmapPage, if_pos hne, hrem]
      · rw [List.mem_append, List.mem_singleton]
        exact or_congr_right ⟨fun hf => ⟨hvalid, hf.symm⟩, fun hf => hf.2.symm⟩
    · refine ⟨l, m', ?_, h, fun f => ⟨.inl, fun hf => hf.elim id ?_⟩⟩
      · simp only [Option.map_some, Option.bind_eq_bind, Option.bind_some, Mem.unmapPage, Mem.pageRemovePte,
          if_neg hv', ite_self, Option.map_some]
      · rintro ⟨hvalid, rfl⟩
        by_contra hn
        exact hv' (hval.2 ⟨hvalid, hn⟩)

theorem Freed.unmapPages (h : Freed d l m m' role) (hm : Paged m role) (hu : m.Unshared d) (hone : m.RefOne d)
    (hd : role d = .node d []) (hl : ∀ f ∈ l, role f = .leaf) (hv : ∀ la ∈ las, vpn la < userVpn) :
    ∃ l' m'', forEach (Mem.pageStep Mem.unmapPage d) m' las = some (true, m'') ∧ Freed d l' m m'' role ∧
      ∀ f, f ∈ l' ↔ f ∈ l ∨ ∃ la ∈ las, pteValid (m.pteAt d (vpn la)) ∧ ptePpn (m.pteAt d (vpn la)) = f := by
  induction las generalizing l m' with
  | nil => exact ⟨l, m', rfl, h, by simp⟩
  | cons la las ih =>
    have hla := hv la (List.mem_cons_self ..)
    obtain ⟨l₁, m₁, hs, h₁, hmem₁⟩ := h.unmapPage hm hu hone hd hl hla
    have hl₁ (f : Nat) (hf : f ∈ l₁) : role f = .leaf := by
      rcases (hmem₁ f).1 hf with hf | ⟨hval, rfl⟩
      · exact hl f hf
      · exact hm.mapped hd hla hval
    obtain ⟨l₂, m₂, hs₂, h₂, hmem₂⟩ := ih h₁ hl₁ fun b hb => hv b (List.mem_cons_of_mem _ hb)
    refine ⟨l₂, m₂, ?_, h₂, fun f => ?_⟩
    · rw [forEach, hs, Option.bind_some]
      exact hs₂
    · rw [hmem₂, hmem₁]
      simp [or_assoc]

/-- `unmap_range` gives back the pages that are mapped in the range. -/
theorem Freed.unmapRange (h : Freed d l m m' role) (hm : Paged m role) (hu : m.Unshared d) (hone : m.RefOne d)
    (hd : role d = .node d []) (hl : ∀ f ∈ l, role f = .leaf) (hs : start % pgSize = 0) (he : stop % pgSize = 0)
    (ha : UserAccess start stop) :
    ∃ l' m'', m'.unmapRange d start stop = some m'' ∧ Freed d l' m m'' role ∧
      ∀ f, f ∈ l' ↔ f ∈ l ∨ ∃ v < userVpn, (start ≤ v * pgSize ∧ v * pgSize < stop) ∧
        pteValid (m.pteAt d v) ∧ ptePpn (m.pteAt d v) = f := by
  obtain ⟨l', m'', hf, h', hmem⟩ := h.unmapPages hm hu hone hd hl fun la hla => (vpn_pagesOf ha hs he hla).1
  refine ⟨l', m'', ?_, h', fun f => ?_⟩
  · unfold Mem.unmapRange Mem.onRange
    rw [if_pos ⟨⟨hs, he⟩, ha⟩, rangeLoop_eq _ hs he ha.2.1, hf]
    rfl
  · rw [hmem]
    refine or_congr_right ⟨?_, ?_⟩
    · rintro ⟨la, hla, hval⟩
      exact ⟨vpn la, (vpn_pagesOf ha hs he hla).1, (exists_mem_pagesOf ha hs he).1 ⟨la, hla, rfl⟩, hval⟩
    · rintro ⟨v, -, hrange, hval⟩
      obtain ⟨la, hla, rfl⟩ := (exists_mem_pagesOf ha hs he).2 hrange
      exact ⟨la, hla, hval⟩

/-- The first loop of `exit_mmap`. -/
theorem Freed.unmapVmas (h : Freed d l m m' role) (hm : Paged m role) (hu : m.Unshared d) (hone : m.RefOne d)
    (hd : role d = .node d []) (hl : ∀ f ∈ l, role f = .leaf)
    (hp : ∀ vma ∈ vmas, vma.vmStart % pgSize = 0 ∧ vma.vmEnd % pgSize = 0 ∧ UserAccess vma.vmStart vma.vmEnd) :
    ∃ l' m'', vmas.foldlM (fun m vma => m.unmapRange d vma.vmStart vma.vmEnd) m' = some m'' ∧
      Freed d l' m m'' role ∧ ∀ f, f ∈ l' ↔ f ∈ l ∨ ∃ v < userVpn, Covered vmas v ∧
        pteValid (m.pteAt d v) ∧ ptePpn (m.pteAt d v) = f := by
  induction vmas generalizing l m' with
  | nil => exact ⟨l, m', rfl, h, by simp [Covered]⟩
  | cons vma vmas ih =>
    obtain ⟨hs, he, ha⟩ := hp vma (List.mem_cons_self ..)
    obtain ⟨l₁, m₁, hr₁, h₁, hmem₁⟩ := h.unmapRange hm hu hone hd hl hs he ha
    have hl₁ (f : Nat) (hf : f ∈ l₁) : role f = .leaf := by
      rcases (hmem₁ f).1 hf with hf | ⟨v, hv, -, hval, rfl⟩
      · exact hl f hf
      · exact hm.mapped hd hv hval
    obtain ⟨l₂, m₂, hr₂, h₂, hmem₂⟩ := ih h₁ hl₁ fun w hw => hp w (List.mem_cons_of_mem _ hw)
    refine ⟨l₂, m₂, ?_, h₂, fun f => ?_⟩
    · rw [List.foldlM_cons, hr₁]
      exact hr₂
    · rw [hmem₂, hmem₁, or_assoc]
      refine or_congr_right ⟨?_, ?_⟩
      · rintro (⟨v, hv, hc, hval⟩ | ⟨v, hv, ⟨w, hw, hc⟩, hval⟩)
        · exact ⟨v, hv, ⟨vma, List.mem_cons_self .., hc⟩, hval⟩
        · exact ⟨v, hv, ⟨w, List.mem_cons_of_mem _ hw, hc⟩, hval⟩
      · rintro ⟨v, hv, ⟨w, hw, hc⟩, hval⟩
        cases hw with
        | head => exact .inl ⟨v, hv, hc, hval⟩
        | tail _ hw => exact .inr ⟨v, hv, ⟨w, hw, hc⟩, hval⟩

end

end UCore
