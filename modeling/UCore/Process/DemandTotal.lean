import UCore.Process.Demand

namespace UCore
set_option autoImplicit true
open Function (update)

/-- Where the condition `C` holds, `swap_out` returns. -/
def SwapsOut {A : PhysSys} (C : Mem A → Prop) (P : Mem A → (Nat → Role) → Prop) : Prop :=
  ∀ m role, P m role → C m → ∃ m', m.swapOut m.checkMm = some m'

section
variable {A : PhysSys} {m m' m₁ m₂ : Mem A} {role role' role₁ : Nat → Role} {dirs : Finset Nat} {K : Nat → Prop}
  {C : Mem A → Prop} {P Q : Mem A → (Nat → Role) → Prop}

namespace SwapInv

/-- `alloc_page` returns: each round takes a page off the queue. -/
theorem alloc_total (hP : SwapInv dirs K C P) (hT : SwapsOut C P) (h : P m role) (hc : ∀ m₁, m.AllocSwaps m₁ → C m₁)
    (hf : m.praList.length < fuel) : ∃ r, m.allocPagesLoop 1 fuel = some r := by
  induction fuel generalizing m role with
  | zero => exact absurd hf (Nat.not_lt_zero _)
  | succ fuel ih =>
    rw [Mem.allocPagesLoop]
    cases hr : A.allocPages m.phys 1 with
    | mk r s =>
      cases r with
      | some p => exact ⟨_, rfl⟩
      | none =>
        have hon := hP.on h
        obtain rfl := A.allocPages_none hr
        have hno : (A.allocPages m.phys 1).1 = none := by rw [hr]
        have hCm := hc m (.here hno hon)
        obtain ⟨m₂, hs⟩ := hT m role h hCm
        obtain ⟨d, v, p, he, h'⟩ := hP.evict h hCm hs
        have hlen : m₂.praList.length < fuel := by
          rw [he.queue, List.length_cons] at hf
          omega
        obtain ⟨r, hr⟩ := ih h' (fun m₁ h₁ => hc m₁ (.next hno hon hs h₁)) hlen
        refine ⟨r, ?_⟩
        dsimp only
        rw [if_neg (by simp [hon]), show (m.setPhys m.phys).swapOut m.checkMm = some m₂ from hs]
        exact hr

theorem allocPage_total (hP : SwapInv dirs K C P) (hT : SwapsOut C P) (h : P m role)
    (hc : ∀ m₁, m.AllocSwaps m₁ → C m₁) : ∃ r, m.allocPage = some r :=
  hP.alloc_total hT h hc (Nat.lt_succ_self _)

theorem nextTable_total (hP : SwapInv dirs K C P) (hT : SwapsOut C P) (h : P m role) (he : role e = .node d p)
    (hl : p.length < 2) (hi : i < sv39.width p.length) (hc : ∀ m₁, m.TableSwaps e i m₁ → C m₁) :
    ∃ r, m.nextTable e i true = some r := by
  unfold Mem.nextTable
  split
  · rename_i hv
    have hr := (hP.paged h).tables.child e d p i he hl hi hv
    rw [(hP.paged h).kva (show role (ptePpn (m.frame e i)) ≠ .other from fun ho => by cases ho.symm.trans hr)]
    exact ⟨_, rfl⟩
  · rename_i hv
    have hv' := Bool.eq_false_iff.2 hv
    rw [if_pos rfl]
    have hcA (m₁ : Mem A) (h₁ : m.AllocSwaps m₁) : C m₁ := hc m₁ ⟨hv', h₁⟩
    obtain ⟨⟨r, m'⟩, ha⟩ := hP.allocPage_total hT h hcA
    obtain ⟨m₁, role₁, t, s, h₁, hk, hup, rfl, hp, rfl⟩ := hP.alloc h hcA ha
    have he₁ := hk e d p he
    have hv₁ : pteValid (m₁.frame e i) = false := by
      rw [hup e d p he hl]
      exact hv'
    have hgrow := (hP.paged h₁).addTable hp he₁ hl hi hv₁
    have hkt : kva t = some t := hgrow.paged.kva (by rw [Function.update_self]; simp)
    have hw : ptePpn (pteCreate t (pteU ||| pteV)) = t :=
      hgrow.paged.ppn_create (by rw [Function.update_self]; simp) (by decide)
    have hentry : (m₁.addTable s t e i).frame e i = pteCreate t (pteU ||| pteV) := by
      rw [addTable_frame, Function.update_self, Function.update_self]
    rw [ha, Option.bind_eq_bind, Option.bind_some]
    dsimp only
    rw [hkt, Option.bind_eq_bind, Option.bind_some]
    change ∃ r, (kva (ptePpn ((m₁.addTable s t e i).frame e i))).map _ = some r
    rw [hentry, hw, hkt]
    exact ⟨_, rfl⟩

theorem getPte_total (hP : SwapInv dirs K C P) (hT : SwapsOut C P) (h : P m role) (hd : role d = .node d [])
    (hv : vpn la < userVpn) (hc : ∀ m₁, m.GetPteSwaps d la m₁ → C m₁) :
    ∃ pt m', m.getPte d la true = some (some (pt, vpn la % 2 ^ 9), m') := by
  have hi : pdx1 la < sv39.width ([] : List Nat).length := by
    rw [pdx1_eq]
    exact (vpath_inWidth hv).1
  have hj : pdx0 la < sv39.width [pdx1 la].length := by
    rw [pdx0_eq]
    exact (vpath_inWidth hv).2.1
  have hc₁ (m₁ : Mem A) (hs : m.TableSwaps d (pdx1 la) m₁) : C m₁ := hc m₁ (.inl hs)
  obtain ⟨⟨r, m₁⟩, h₁⟩ := hP.nextTable_total hT h hd (show 0 < 2 by decide) hi hc₁
  obtain ⟨role₁, pd0, hP₁, hk₁, rfl, hpd0⟩ := hP.nextTable h hd (show 0 < 2 by decide) hi hc₁ h₁
  have hc₂ (m₂ : Mem A) (hs : m₁.TableSwaps pd0 (pdx0 la) m₂) : C m₂ := hc m₂ (.inr ⟨pd0, m₁, h₁, hs⟩)
  obtain ⟨⟨r, m₂⟩, h₂⟩ := hP.nextTable_total hT hP₁ hpd0 (show 1 < 2 by decide) hj hc₂
  obtain ⟨role₂, pt, -, -, rfl, -⟩ := hP.nextTable hP₁ hpd0 (show 1 < 2 by decide) hj hc₂ h₂
  refine ⟨pt, m₂, ?_⟩
  unfold Mem.getPte
  rw [h₁, Option.bind_eq_bind, Option.bind_some]
  dsimp only
  rw [h₂, Option.bind_some, ptx_eq]

/-- `page_insert` of a new page returns. -/
theorem pageInsert_total (hQ : SwapInv dirs K C Q) (perm : BitVec 32) (hT : SwapsOut C Q) (h : Q m role)
    (ht : Fresh dirs t m role) (hd : role d = .node d []) (hv : vpn la < userVpn) (hc : ∀ m₁, m.GetPteSwaps d la m₁ → C m₁) :
    ∃ m', m.pageInsert d t la perm = some (true, m') := by
  obtain ⟨pt, m₁, hg⟩ := hQ.getPte_total hT h hd hv hc
  obtain ⟨role₁, pt', ⟨h₁, ht₁, -⟩, -, hslot, hpt⟩ := (hQ.fresh t (m.frame t)).getPte ⟨h, ht, rfl⟩ hd hv hc hg
  cases hslot
  unfold Mem.pageInsert
  rw [hg, Option.bind_eq_bind, Option.bind_some]
  dsimp only
  have hframe : (m₁.setRef t (m₁.ref t + 1)).frame = m₁.frame := rfl
  rw [hframe]
  split
  · rename_i hval
    have hleaf := (hQ.paged h₁).tables.leaf pt d _ _ hpt rfl
      (show vpn la % 2 ^ 9 < 2 ^ 9 from Nat.mod_lt _ (by decide)) hval
    have hk : kva (ptePpn (m₁.frame pt (vpn la % 2 ^ 9))) = some (ptePpn (m₁.frame pt (vpn la % 2 ^ 9))) :=
      (hQ.paged h₁).kva fun ho => by cases ho.symm.trans hleaf
    simp only [hk, Option.bind_eq_bind, Option.bind_some]
    split
    · exact ⟨_, rfl⟩
    · unfold Mem.pageRemovePte
      rw [hframe, if_pos hval, hk]
      exact ⟨_, rfl⟩
  · exact ⟨_, rfl⟩

end SwapInv

/-- A new page that has been mapped once has one reference. -/
theorem ref_new (h : MapsNew dirs K Q d v t w m₂) (hd : d ∈ dirs) (hv : v < userVpn) : m₂.ref t = 1 := by
  obtain ⟨m₁, role₁, role₂, -, ht, -, hi⟩ := h
  have hslot : (d, v) ∈ userSlots dirs := mem_userSlots.2 ⟨hd, hv⟩
  have hleaf := (hi.mapped_leaf hd hv hi.new).1
  have hone : m₂.mapCount dirs t = 1 := by
    have hupd := tally_update (f := m₁.mapped) hslot (some t) t
    have hzero : tally (userSlots dirs) m₁.mapped t = 0 := tally_eq_zero.2 ht.unmapped
    rw [if_neg (ht.unmapped _ hslot), if_pos rfl, hzero] at hupd
    refine (tally_congr (fun x hx => ?_) t).trans hupd
    by_cases hxv : x = (d, v)
    · rw [hxv, Function.update_self]
      exact hi.new
    · obtain ⟨hc, hw⟩ := mem_userSlots.1 hx
      rw [Function.update_of_ne hxv, Mem.mapped, hi.pte _ hc _ hw fun he => hxv (Prod.ext_iff.2 he)]
      rfl
  have href := hi.exact t hleaf
  rw [show m₂.still.mapCount dirs t = m₂.mapCount dirs t from rfl, hone] at href
  exact href

namespace Demand

/-- `swap_out` returns when there is a page in the queue. -/
theorem swapOut_total (h : Demand dirs K mm d m role) (hq : m.praList ≠ []) : ∃ m', m.swapOut m.checkMm = some m' := by
  cases hl : m.praList with
  | nil => exact absurd hl hq
  | cons p rest =>
    have hp : p ∈ m.praList := by
      rw [hl]
      exact List.mem_cons_self ..
    have ha := h.vaddr p hp
    have hroot := (h.root d).2 h.dir
    obtain ⟨pt, i, hslot, hval, -⟩ := h.toCounted.paged.getPte_mapped hroot (vpn_lt ha) (h.live p hp)
    have hpt : m.pteSlot d (m.praVaddr p) = some (some (pt, i)) := by
      rw [getPte_false] at hslot
      obtain ⟨r, hr, he⟩ := Option.map_eq_some_iff.1 hslot
      rw [hr, (Prod.mk.inj he).1]
    have hoff : m.swapOffset (Mem.swapEntry (m.praVaddr p)) = some (vpn (m.praVaddr p) + 1) := by
      rw [swapEntry_vpn ha]
      exact swapOffset_swapEntry (vpn_lt ha) (h.slots p hp)
    rw [h.checkMm]
    unfold Mem.swapOut Mem.swapOutVictim
    rw [Option.bind_eq_bind, Option.bind_some, if_pos h.areas.priv, hl, Option.bind_eq_bind, Option.bind_some]
    dsimp only
    have hpt' : Mem.pteSlot { m with praList := rest } d (m.praVaddr p) = some (some (pt, i)) :=
      (pteSlot_frame rfl).trans hpt
    simp only [h.pgdir, hpt', Option.bind_eq_bind, Option.bind_some]
    rw [if_pos hval, Mem.swapfsWrite]
    have hoff' : Mem.swapOffset { m with praList := rest } (Mem.swapEntry (m.praVaddr p)) = _ := hoff
    rw [hoff']
    exact ⟨_, rfl⟩

end Demand

namespace Faulting

theorem swapsOut (dirs : Finset Nat) (K : Nat → Prop) (mm d v : Nat) (m₀ : Mem A) :
    SwapsOut (fun m : Mem A => m.praList ≠ []) (Faulting dirs K mm d v m₀) := fun _ _ h hq => h.1.swapOut_total hq

/-- What `pgdir_alloc_page` and `do_pgfault` need to put a new page into the queue. -/
theorem newVars (h : MapsNew dirs K (Faulting dirs K mm d v m₀) d v t w m₂) :
    m₂.swapInitOk = true ∧ m₂.checkMm = some mm ∧ (m₂.mms mm).smPriv = true := by
  obtain ⟨m₁, role₁, role₂, h₁, -, -, hi⟩ := h
  refine ⟨hi.vars.swapInitOk.trans h₁.1.on, hi.vars.checkMm.trans h₁.1.checkMm, ?_⟩
  rw [hi.vars.mms]
  exact h₁.1.areas.priv

theorem pgdirAllocPage_total (h : Faulting dirs K mm d (vpn la) m₀ m role) (hv : vpn la < userVpn) (hb : PermBits perm)
    (hc : ∀ m₁, m.PgdirAllocPageSwaps d la m₁ → m₁.praList ≠ []) :
    ∃ t m', m.pgdirAllocPage d la perm = some (some t, m') := by
  have hF := Demand.faultInv mm K (fun m : Mem A => m.praList ≠ []) m₀ h.1.dir hv
  have hT := swapsOut dirs K mm d (vpn la) m₀
  obtain ⟨⟨r, m₁⟩, ha⟩ := hF.before.allocPage_total hT h fun m₁ hs => hc m₁ (.inl hs)
  obtain ⟨t, role₁, rfl, h₁, ht, hk⟩ := hF.allocPage h (fun m₁ hs => hc m₁ (.inl hs)) ha
  have hd := hk d d [] ((h.1.root d).2 h.1.dir)
  have hcg (m₂ : Mem A) (hs : m₁.GetPteSwaps d la m₂) : m₂.praList ≠ [] := hc m₂ (.inr ⟨t, m₁, ha, hs⟩)
  obtain ⟨m₂, hi⟩ := hF.after.pageInsert_total perm hT h₁ ht hd hv hcg
  obtain ⟨-, hnew⟩ := hF.after.pageInsert h₁ ht hd hv hb hcg hi
  obtain ⟨hon, hcheck, hpriv⟩ := newVars hnew
  unfold Mem.pgdirAllocPage
  simp only [ha, hi, Option.bind_eq_bind, Option.bind_some]
  rw [if_pos hon]
  simp only [hcheck, Mem.swapMapSwappable]
  rw [if_pos hpriv, Option.bind_some, if_pos (ref_new hnew h.1.dir hv)]
  exact ⟨t, _, rfl⟩

/-- `swap_in` of a page that is on the disk, and the `page_insert` after it. -/
theorem swapIn_total (h : Faulting dirs K mm d (vpn la) m₀ m role) (hpt : role pt = .node d (vpath (vpn la)))
    (hv : vpn la < userVpn) (hb : PermBits perm) (hnz : m.frame pt (vpn la % 2 ^ 9) ≠ 0)
    (hc : ∀ m₁, m.SwapInSwaps mm d la m₁ → m₁.praList ≠ []) :
    ∃ t m₁ m₂, m.swapIn mm la = some (t, m₁) ∧ m₁.pageInsert d t la perm = some (true, m₂) ∧
      (m₂.mms mm).smPriv = true := by
  have hF := Demand.faultInv mm K (fun m : Mem A => m.praList ≠ []) m₀ h.1.dir hv
  have hT := swapsOut dirs K mm d (vpn la) m₀
  have hslot : (d, vpn la) ∈ userSlots dirs := mem_userSlots.2 ⟨h.1.dir, hv⟩
  obtain ⟨⟨r, m₁⟩, ha⟩ := hF.before.allocPage_total hT h fun m₁ hs => hc m₁ (.inl hs)
  obtain ⟨t, role₁, rfl, h₁, ht, hk⟩ := hF.allocPage h (fun m₁ hs => hc m₁ (.inl hs)) ha
  -- the page is still on the disk
  have hs : m.SwappedOut d (vpn la) := by
    refine ⟨h.2.1, ?_⟩
    rw [h.1.toCounted.paged.pteAt_node hpt hv]
    exact hnz
  have hpage := h.2.2.2 _ hslot
  have hpage₁ := h₁.2.2.2 _ hslot
  dsimp only at hpage hpage₁
  rw [pageAt_swapped hs, h.1.pageAt_slot h.1.dir hv hs] at hpage
  have hs₁ : m₁.SwappedOut d (vpn la) := by
    refine ⟨h₁.2.1, fun hz => ?_⟩
    rw [← hpage, Mem.pageAt, hz] at hpage₁
    cases hpage₁
  have hoff := h₁.1.pageAt_slot h.1.dir hv hs₁
  have hd := (h.1.root d).2 h.1.dir
  have hpt₁ := hk pt d _ hpt
  have hpaged₁ := h₁.1.toCounted.paged
  have hread : m.swapIn mm la = some (t, m₁.setFrame t (m₁.disk (vpn la + 1))) := by
    unfold Mem.swapIn
    simp only [ha, h₁.1.pgdir, Option.bind_eq_bind, Option.bind_some]
    rw [hpaged₁.pteSlot_eq (hk d d [] hd) hv, (hpaged₁.walk_iff (hk d d [] hd) hv).2 hpt₁]
    simp only [Option.map_some, Option.bind_some, Mem.swapfsRead]
    rw [← hpaged₁.pteAt_node hpt₁ hv, hoff]
    rfl
  have ht' := ht.write (hF.after.counted h₁) (m₁.disk (vpn la + 1))
  have hcg (m₂ : Mem A) (hs : (m₁.setFrame t (m₁.disk (vpn la + 1))).GetPteSwaps d la m₂) : m₂.praList ≠ [] :=
    hc m₂ (.inr ⟨t, _, hread, hs⟩)
  obtain ⟨m₂, hi⟩ := hF.after.pageInsert_total perm hT (hF.write h₁ ht) ht' (hk d d [] hd) hv hcg
  obtain ⟨-, hnew⟩ := hF.after.pageInsert (hF.write h₁ ht) ht' (hk d d [] hd) hv hb hcg hi
  exact ⟨t, _, m₂, hread, hi, (newVars hnew).2.2⟩

end Faulting

namespace Demand

/-- While pages can be swapped out a fault at an address of an area returns 0. -/
theorem fault_total (h : Demand dirs K mm d m role) (hw : vma ∈ (m.mms mm).mmapList) (hc : vma.Covers addr)
    (hval : pteValid (m.pteAt d (vpn addr)) = false) (hfed : ∀ m₁, m.DoPgfaultSwaps mm d addr m₁ → m₁.praList ≠ []) :
    ∃ m', m.doPgfault (some mm) addr = some (0, m') := by
  have ha : addr < 2 ^ 38 := lt_of_lt_of_le hc.2 (h.areas.bound vma hw)
  have hla : roundDown addr pgSize < 2 ^ 38 := Nat.lt_of_le_of_lt (Nat.sub_le ..) ha
  have hv := vpn_lt hla
  rw [← vpn_roundDown addr] at hval
  have hF := faultInv mm K (fun m : Mem A => m.praList ≠ []) m h.dir hv
  have hT := Faulting.swapsOut dirs K mm d (vpn (roundDown addr pgSize)) m
  have hroot := (h.root d).2 h.dir
  obtain ⟨vma', hfind, hle⟩ := findVma_covered hw hc
  have h₁ : Faulting dirs K mm d (vpn (roundDown addr pgSize)) m (m.setCache mm (some vma')) role :=
    ⟨h.cache _, hval, rfl, fun _ _ => rfl⟩
  generalize m.setCache mm (some vma') = m₁ at hfind h₁
  have hstart : ¬ vma'.vmStart > addr := Nat.not_lt.2 hle
  have hcg (m₂ : Mem A) (hs : m₁.GetPteSwaps d (roundDown addr pgSize) m₂) : m₂.praList ≠ [] :=
    hfed m₂ ⟨vma', m₁, hfind, hstart, .inl hs⟩
  obtain ⟨pt, m₂, hg⟩ := hF.before.getPte_total hT h₁ hroot hv hcg
  obtain ⟨role₂, pt', h₂, hk₂, hslot, hpt⟩ := hF.before.getPte h₁ hroot hv hcg hg
  cases hslot
  have hd₂ := hk₂ d d [] hroot
  unfold Mem.doPgfault
  rw [hfind]
  dsimp only
  rw [if_neg hstart]
  simp only [h₁.1.pgdir, hg, Option.bind_eq_bind, Option.bind_some]
  rw [show (if vma'.vmFlags &&& vmWrite ≠ 0 then pteU ||| readWrite else pteU) = vma'.faultPerm from rfl]
  have hb := permBits_faultPerm vma'
  have hswaps (m₃ : Mem A) (hs : m₂.frame pt (vpn (roundDown addr pgSize) % 2 ^ 9) = 0 ∧
      m₂.PgdirAllocPageSwaps d (roundDown addr pgSize) m₃ ∨ m₂.frame pt (vpn (roundDown addr pgSize) % 2 ^ 9) ≠ 0 ∧
      m₂.SwapInSwaps mm d (roundDown addr pgSize) m₃) : m₃.praList ≠ [] :=
    hfed m₃ ⟨vma', m₁, hfind, hstart, .inr ⟨pt, _, m₂, hg, hs⟩⟩
  by_cases hz : m₂.frame pt (vpn (roundDown addr pgSize) % 2 ^ 9) = 0
  · obtain ⟨t, m₄, hp⟩ := h₂.pgdirAllocPage_total hv hb fun m₃ hs => hswaps m₃ (.inl ⟨hz, hs⟩)
    rw [if_pos hz, hp]
    exact ⟨m₄, rfl⟩
  · obtain ⟨t, m₄, m₅, hin, hins, hpriv⟩ := h₂.swapIn_total hpt hv hb hz
      fun m₃ hs => hswaps m₃ (.inr ⟨hz, hs⟩)
    rw [if_neg hz, if_pos h₂.1.on, hin]
    simp only [hins, Option.bind_some, Mem.swapMapSwappable]
    rw [if_pos hpriv]
    exact ⟨_, rfl⟩

end Demand

end

end UCore
