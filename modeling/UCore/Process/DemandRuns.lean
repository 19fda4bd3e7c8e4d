import UCore.Mm.Spaces
import UCore.Process.DemandTotal

namespace UCore
set_option autoImplicit true
open Function (update)

section
variable {A : PhysSys} {m m' : Mem A} {role : Nat → Role} {dirs : Finset Nat} {K : Nat → Prop} {a : Access Nat (BitVec 8)}

/-- The byte in a page that is there. -/
theorem byteAt_page (hlt : la < 2 ^ 38) (hu : m.pageAt d (vpn la) = some u) :
    m.byteAt d la = some (u.byte (la % pgSize)) := by
  rw [Mem.byteAt, if_pos hlt, hu]
  rfl

/-- Where the pages keep their contents, so do the bytes. -/
theorem byteAt_kept (hd : d ∈ dirs) (hself : ∀ u, m.pageAt d v = some u → m'.pageAt d v = some u)
    (hrest : ∀ x ∈ userSlots dirs, x ≠ (d, v) → m'.pageAt x.1 x.2 = m.pageAt x.1 x.2) (la : Nat) (c : BitVec 8)
    (hc : m.byteAt d la = some c) : m'.byteAt d la = some c := by
  unfold Mem.byteAt at hc ⊢
  split at hc
  · rename_i hlt
    obtain ⟨u, hu, hc⟩ := Option.map_eq_some_iff.1 hc
    rw [if_pos hlt]
    refine Option.map_eq_some_iff.2 ⟨u, ?_, hc⟩
    by_cases hv : vpn la = v
    · rw [hv] at hu ⊢
      exact hself u hu
    · rw [← hu]
      exact hrest (d, vpn la) (mem_userSlots.2 ⟨hd, vpn_lt hlt⟩) fun he => hv (Prod.mk.inj he).2
  · cases hc

/-- A store keeps the bytes at the other addresses. -/
theorem byteAt_write (hlt : la < 2 ^ 38) (hd : d ∈ dirs) (hm : m.mapped (d, vpn la) = some p)
    (hpage : m'.pageAt d (vpn la) = some ((m.frame p).fill (la % pgSize) 1 src))
    (hrest : ∀ x ∈ userSlots dirs, x ≠ (d, vpn la) → m'.pageAt x.1 x.2 = m.pageAt x.1 x.2) (hx : x ≠ la)
    (hc : m.byteAt d x = some c) : m'.byteAt d x = some c := by
  by_cases hv : vpn x = vpn la
  · unfold Mem.byteAt at hc ⊢
    split at hc
    · rename_i hxlt
      rw [hv, pageAt_mapped hm] at hc
      obtain rfl : (m.frame p).byte (x % pgSize) = c := Option.some.inj hc
      have hne : x % pgSize ≠ la % pgSize := by
        rw [vpn_eq hxlt, vpn_eq hlt] at hv
        intro he
        exact hx (by rw [← Nat.div_add_mod x pgSize, ← Nat.div_add_mod la pgSize, hv, he])
      rw [if_pos hxlt, hv, hpage, Option.map_some, Words.byte_fill, if_neg (by omega)]
    · cases hc
  · unfold Mem.byteAt at hc ⊢
    split at hc
    · rename_i hxlt
      rw [if_pos hxlt, hrest (d, vpn x) (mem_userSlots.2 ⟨hd, vpn_lt hxlt⟩) fun he => hv (Prod.mk.inj he).2]
      exact hc
    · cases hc

namespace Demand

/-- No two pages that are swapped out share a slot. -/
theorem slotsUnshared (h : Demand dirs K mm d m role) : m.SlotsUnshared dirs := by
  rintro ⟨b, v⟩ hx ⟨c, w⟩ hy hsx hsy heq
  obtain ⟨hb, hv⟩ := mem_userSlots.1 hx
  obtain ⟨hc, hw⟩ := mem_userSlots.1 hy
  dsimp only at heq
  rw [h.pageAt_slot hb hv hsx, h.pageAt_slot hc hw hsy] at heq
  rw [(h.entry b hb v hv hsx).1, (h.entry c hc w hw hsy).1, Nat.succ.inj (Option.some.inj heq)]

/-- Writing into the frame of a page changes that page only. -/
theorem write (h : Demand dirs K mm d m role) (hv : v < userVpn) (hm : m.mapped (d, v) = some p) (w : Words) :
    Demand dirs K mm d (m.setFrame p w) role ∧ (m.setFrame p w).pageAt d v = some w ∧
      ∀ x ∈ userSlots dirs, x ≠ (d, v) → (m.setFrame p w).pageAt x.1 x.2 = m.pageAt x.1 x.2 := by
  have hleaf := (h.mapped_leaf h.dir hv hm).1
  have hpte : ∀ c ∈ dirs, ∀ x < userVpn, (m.setFrame p w).pteAt c x = m.pteAt c x :=
    fun c hc x hx => h.toCounted.pteAt_write hleaf w hc hx
  refine ⟨h.same (h.toCounted.write hleaf w).1 (.setFrame ..) hpte, ?_, fun x hx hne => ?_⟩
  · have hm' : (m.setFrame p w).mapped (d, v) = some p := by
      rw [← hm, Mem.mapped, Mem.mapped, hpte d h.dir v hv]
    rw [pageAt_mapped hm']
    exact congrArg some (Function.update_self ..)
  · obtain ⟨hc, hw⟩ := mem_userSlots.1 hx
    refine pageAt_congr (hpte _ hc _ hw) rfl (fun q hq => Function.update_of_ne ?_ ..) fun _ _ _ => rfl
    rintro rfl
    exact hne (h.once v hv q hm x hx hq)

/-- A page that is not there is faulted in before it is looked up again. -/
theorem touchChecked_miss (hc : m.checkMm = some mm) (hval : pteValid (m.pteAt d (vpn la)) = false) :
    m.touchChecked d la perm (fuel + 1) = (m.doPgfault (some mm) la).bind fun (ret, m') =>
      if ret ≠ 0 then none else m'.touchChecked d la perm fuel := by
  have htr : m.translate d la = none := if_neg (by rw [hval]; simp)
  rw [Mem.touchChecked, htr]
  dsimp only [Option.filter]
  rw [Mem.checkFault, hc]
  rfl

/-- A page that is there is found without a fault. -/
theorem touch_hit (h : Demand dirs K mm d m role) (hv : vpn la < userVpn) (hm : m.mapped (d, vpn la) = some p)
    (hperm : perm = pteR ∨ perm = pteW) : m.touchChecked d la perm (fuel + 1) = some ((p, la % pgSize), m) := by
  obtain ⟨hval, rfl⟩ := pteFrame_eq_some.1 hm
  dsimp only at hval ⊢
  have hflags := h.flags _ hv hval
  have hleaf := h.toCounted.paged.mapped ((h.root d).2 h.dir) hv hval
  have hk : kva (ptePpn (m.pteAt d (vpn la))) = some (ptePpn (m.pteAt d (vpn la))) :=
    h.toCounted.paged.kva fun ho => by cases ho.symm.trans hleaf
  have htr : (m.translate d la).filter (fun r => r.2 &&& perm ≠ 0) =
      some (ptePpn (m.pteAt d (vpn la)) * pgSize + la % pgSize, pteU ||| readWrite) := by
    unfold Mem.translate
    rw [if_pos hval, hflags]
    refine Option.filter_eq_some_iff.2 ⟨rfl, decide_eq_true (show (pteU ||| readWrite) &&& perm ≠ 0 from ?_)⟩
    rcases hperm with rfl | rfl <;> decide
  have hoff : la % pgSize < pgSize := Nat.mod_lt _ (by decide)
  rw [Mem.touchChecked, htr]
  dsimp only
  rw [Nat.mul_comm, Nat.mul_add_div (by decide), Nat.div_eq_of_lt hoff, Nat.add_zero, hk, Nat.mul_add_mod,
    Nat.mod_eq_of_lt hoff]
  rfl

/-- After an access to an address of an area the page is there, and the contents of the pages are as before. -/
theorem touch (h : Demand dirs K mm d m role) (htidy : VmaTidy (m.mms mm)) (hw : vma ∈ (m.mms mm).mmapList)
    (hc : vma.Covers la) (hperm : perm = pteR ∨ perm = pteW) (ht : m.touchChecked d la perm (fuel + 2) = some (r, m')) :
    ∃ p role', r = (p, la % pgSize) ∧ Demand dirs K mm d m' role' ∧ VmaTidy (m'.mms mm) ∧
      m'.mapped (d, vpn la) = some p ∧ (∀ u, m.pageAt d (vpn la) = some u → m'.pageAt d (vpn la) = some u) ∧
      ∀ x ∈ userSlots dirs, x ≠ (d, vpn la) → m'.pageAt x.1 x.2 = m.pageAt x.1 x.2 := by
  have hv : vpn la < userVpn := vpn_lt (lt_of_lt_of_le hc.2 (h.areas.bound vma hw))
  by_cases hval : pteValid (m.pteAt d (vpn la))
  · have hm : m.mapped (d, vpn la) = some _ := pteFrame_eq_some.2 ⟨hval, rfl⟩
    rw [h.touch_hit hv hm hperm] at ht
    cases ht
    exact ⟨_, role, rfl, h, htidy, hm, fun _ hu => hu, fun _ _ _ => rfl⟩
  · rw [touchChecked_miss h.checkMm (Bool.eq_false_iff.2 hval)] at ht
    obtain ⟨⟨ret, m₁⟩, hf, ht⟩ := Option.bind_eq_some_iff.1 ht
    dsimp only at ht
    split at ht
    · cases ht
    · rename_i hret
      obtain rfl := not_not.1 hret
      obtain ⟨⟨role', h'⟩, hvalid, hself, hother⟩ := h.fault htidy hw hc (Bool.eq_false_iff.2 hval) hf
      have hm : m₁.mapped (d, vpn la) = some _ := pteFrame_eq_some.2 ⟨hvalid, rfl⟩
      rw [h'.touch_hit hv hm hperm] at ht
      cases ht
      exact ⟨_, role', rfl, h', (SameSpaces.doPgfault hf).tidy mm htidy, hm, hself, hother⟩

/-- While there is a page for it, an access to an address of an area returns. -/
theorem touch_total (h : Demand dirs K mm d m role) (htidy : VmaTidy (m.mms mm)) (hw : vma ∈ (m.mms mm).mmapList)
    (hc : vma.Covers la) (hperm : perm = pteR ∨ perm = pteW)
    (hfed : pteValid (m.pteAt d (vpn la)) = false → ∀ m₁, m.DoPgfaultSwaps mm d la m₁ → m₁.praList ≠ []) :
    ∃ r m', m.touchChecked d la perm (fuel + 2) = some (r, m') := by
  have hv : vpn la < userVpn := vpn_lt (lt_of_lt_of_le hc.2 (h.areas.bound vma hw))
  by_cases hval : pteValid (m.pteAt d (vpn la))
  · have hm : m.mapped (d, vpn la) = some _ := pteFrame_eq_some.2 ⟨hval, rfl⟩
    exact ⟨_, m, h.touch_hit hv hm hperm⟩
  · have hval' := Bool.eq_false_iff.2 hval
    obtain ⟨m', hf⟩ := h.fault_total hw hc hval' (hfed hval')
    obtain ⟨⟨role', h'⟩, hvalid, -⟩ := h.fault htidy hw hc hval' hf
    have hm : m'.mapped (d, vpn la) = some _ := pteFrame_eq_some.2 ⟨hvalid, rfl⟩
    refine ⟨(ptePpn (m'.pteAt d (vpn la)), la % pgSize), m', ?_⟩
    rw [touchChecked_miss h.checkMm hval', hf, Option.bind_some]
    dsimp only
    rw [if_neg (by simp)]
    exact h'.touch_hit hv hm hperm

/-- What an access returns is in the byte afterwards, and was there before if it is a load; the other bytes are kept. -/
theorem access (h : Demand dirs K mm d m role) (htidy : VmaTidy (m.mms mm)) (hw : vma ∈ (m.mms mm).mmapList)
    (hc : vma.Covers a.addr) (ha : m.demandAccess d (fuel + 2) a = some (b, m')) :
    (∃ role', Demand dirs K mm d m' role') ∧ VmaTidy (m'.mms mm) ∧ a.Sees (m.byteAt d) (m'.byteAt d) b := by
  have hlt : a.addr < 2 ^ 38 := lt_of_lt_of_le hc.2 (h.areas.bound vma hw)
  cases a with
  | load la =>
    obtain ⟨⟨r, m₁⟩, ht, ha⟩ := Option.map_eq_some_iff.1 ha
    cases ha
    obtain ⟨p, role', rfl, h', htidy', hm, hself, hrest⟩ := h.touch htidy hw hc (.inl rfl) ht
    have hkept := byteAt_kept h.dir hself hrest
    have hbyte := byteAt_page hlt (pageAt_mapped hm)
    refine ⟨⟨role', h'⟩, htidy', hbyte, ?_, nofun, fun x _ => hkept x⟩
    rintro x hx c hxc
    cases hx
    exact Option.some.inj ((hkept la c hxc).symm.trans hbyte)
  | store la b' =>
    obtain ⟨⟨r, m₁⟩, ht, ha⟩ := Option.bind_eq_some_iff.1 ha
    obtain ⟨m₂, hwr, ha⟩ := Option.map_eq_some_iff.1 ha
    cases ha
    obtain ⟨p, role₁, rfl, h₁, htidy₁, hm, hself, hrest⟩ := h.touch htidy hw hc (.inr rfl) ht
    have hkept := byteAt_kept h.dir hself hrest
    dsimp only at hwr
    unfold Mem.writePage at hwr
    split at hwr
    · cases hwr
      obtain ⟨h', hpage, hother⟩ := h₁.write (vpn_lt hlt) hm ((m₁.frame p).fill (la % pgSize) 1 fun _ => b)
      refine ⟨⟨role₁, h'⟩, htidy₁, ?_, nofun, ?_, fun x hx c hxc => ?_⟩
      · refine (byteAt_page hlt hpage).trans ?_
        rw [Words.byte_fill, if_pos ⟨Nat.le_refl _, Nat.lt_succ_self _⟩]
      · rintro x c he
        cases he
        rfl
      · exact byteAt_write hlt h.dir hm hpage hother hx (hkept x c hxc)
    · cases hwr

theorem access_total (h : Demand dirs K mm d m role) (htidy : VmaTidy (m.mms mm)) (hw : vma ∈ (m.mms mm).mmapList)
    (hc : vma.Covers a.addr) (hfed : m.Fed mm d a) : ∃ b m', m.demandAccess d (fuel + 2) a = some (b, m') := by
  cases a with
  | load la =>
    obtain ⟨r, m', ht⟩ : ∃ r m', m.touchChecked d la pteR (fuel + 2) = some (r, m') :=
      h.touch_total htidy hw hc (.inl rfl) hfed
    exact ⟨_, m', congrArg (Option.map _) ht⟩
  | store la b =>
    obtain ⟨r, m₁, ht⟩ : ∃ r m', m.touchChecked d la pteW (fuel + 2) = some (r, m') :=
      h.touch_total htidy hw hc (.inr rfl) hfed
    obtain ⟨p, role₁, rfl, -⟩ := h.touch htidy hw hc (.inr rfl) ht
    have hoff : la % pgSize + 1 ≤ pgSize := Nat.mod_lt la (by decide)
    refine ⟨b, m₁.setFrame p ((m₁.frame p).fill (la % pgSize) 1 fun _ => b), ?_⟩
    show (m.touchChecked d la pteW (fuel + 2)).bind _ = _
    rw [show m.touchChecked d la pteW (fuel + 2) = _ from ht, Option.bind_some]
    exact congrArg (Option.map _) (if_pos hoff)

end Demand

theorem demandMachine_demand (h : (demandMachine A dirs K mm d fuel).Reachable m) :
    (∃ role, Demand dirs K mm d m role) ∧ VmaTidy (m.mms mm) := by
  refine h.invariant (fun m => (∃ role, Demand dirs K mm d m role) ∧ VmaTidy (m.mms mm)) ?_ ?_
  · rintro m ⟨hr, hon, hc, hpg, hd, hq, htidy, hswap, hzero, hout⟩
    obtain ⟨role, hcount⟩ := pageMachine_counted hr
    have hval (v : Nat) (hv : v < userVpn) : pteValid (m.pteAt d v) = false := by
      rw [hzero v hv]
      rfl
    have hqueue : Queued dirs K mm d m role := by
      refine ⟨hcount, hon, hc, hpg, hd, ?_, ?_, ?_, ?_⟩ <;> simp [hq]
    refine ⟨⟨role, hqueue, hswap, fun c hc v hv hs => absurd hs (hout c hc v hv), ?_, fun v hv hvv => ?_,
      fun v hv p hp => ?_⟩, htidy⟩
    · simp [hq]
    · rw [hval v hv] at hvv
      cases hvv
    · cases (pteFrame_eq_some.1 hp).1.symm.trans (hval v hv)
  · rintro m a m' ⟨⟨role, h⟩, htidy⟩ ⟨vma, hw, hc⟩ hn
    obtain ⟨⟨b, m₁⟩, ha, rfl⟩ := Option.map_eq_some_iff.1 hn
    obtain ⟨h', htidy', -⟩ := h.access htidy hw hc ha
    exact ⟨h', htidy'⟩

/-- A program that runs while its pages go to the disk and come back sees one flat memory: each load returns what was
stored last. Each access returns while there is a page for it, no two pages share a frame or a slot, and what is queued
can be swapped out. -/
theorem demand_paging_transparent (h : (demandMachine A dirs K mm d fuel).Reachable m) :
    m.QueueLive mm ∧ m.SlotsUnshared dirs ∧
      (∀ v < userVpn, ∀ p, m.mapped (d, v) = some p → ∀ x ∈ userSlots dirs, m.mapped x = some p → x = (d, v)) ∧
      (∀ a, (demandMachine A dirs K mm d fuel).enabled m a → m.Fed mm d a →
        ∃ b, m.returned d (fuel + 2) a = some b) ∧
      ∀ r, (demandMachine A dirs K mm d fuel).Path m r → ∃ f : Nat → BitVec 8,
        (∀ la b, m.byteAt d la = some b → f la = b) ∧
          Machine.observe (fun m a => m.returned d (fuel + 2) a) m r =
            (Access.results f (r.map Prod.fst)).map some := by
  obtain ⟨⟨role, hd⟩, htidy⟩ := demandMachine_demand h
  refine ⟨hd.queueLive, hd.slotsUnshared, hd.once, ?_, fun r hp => ?_⟩
  · rintro a ⟨vma, hw, hc⟩ hfed
    obtain ⟨b, m', ha⟩ : ∃ b m', m.demandAccess d (fuel + 2) a = some (b, m') := hd.access_total htidy hw hc hfed
    exact ⟨b, congrArg (Option.map Prod.fst) ha⟩
  · have hstep : ∀ s a t, (demandMachine A dirs K mm d fuel).Reachable s →
        (demandMachine A dirs K mm d fuel).enabled s a → (demandMachine A dirs K mm d fuel).next s a = some t →
        ∃ b, s.returned d (fuel + 2) a = some b ∧ a.Sees (s.byteAt d) (t.byteAt d) b := by
      rintro s a t hs ⟨vma, hw, hc⟩ hn
      obtain ⟨⟨role', hd'⟩, htidy'⟩ := demandMachine_demand hs
      obtain ⟨⟨b, t'⟩, ha, rfl⟩ := Option.map_eq_some_iff.1 hn
      exact ⟨b, congrArg (Option.map Prod.fst) ha, (hd'.access htidy' hw hc ha).2.2⟩
    exact Machine.Path.flat hstep h hp

end

instance : Decidable ((demandMachine A dirs K mm d fuel).enabled m a) :=
  inferInstanceAs (Decidable (∃ vma ∈ (m.mms mm).mmapList, vma.Covers a.addr))

/-- The address space 1 has an area of three pages, for which there are two frames beside its tables. -/
def demandMem : Mem framePool :=
  { swapMem with mms := fun _ => ⟨[⟨1, 0x1000, 0x4000, vmWrite⟩], none, some 0x80200, 0, true, 0⟩ }

abbrev smallDemand : Machine (Mem framePool) (Access Nat (BitVec 8)) :=
  demandMachine framePool {0x80200} (fun f => f < 0x80200 ∨ 0x80304 ≤ f) 1 0x80200 0

theorem demandMem_init : smallDemand.init demandMem := by
  have hpte (v : Nat) (hv : v < userVpn) : demandMem.pteAt 0x80200 v = 0 := by
    refine pteAt_empty (fun i _ => ?_) hv
    show pteValid 0 = false
    rfl
  refine ⟨.init poolMem_init, rfl, rfl, rfl, Finset.mem_singleton_self _, rfl, ⟨⟨?_, ?_⟩, nofun⟩, ⟨rfl, ?_, ?_, ?_⟩, hpte,
    fun c hc v hv hs => ?_⟩
  · decide
  · exact List.pairwise_singleton ..
  · decide
  · decide
  · intro vma hw la hc
    obtain rfl := List.mem_singleton.1 hw
    have hlt : la < 0x4000 := hc.2
    rw [vpn_eq (by omega)]
    show la / 4096 + 1 < 7
    omega
  · obtain rfl := Finset.mem_singleton.1 hc
    exact hs.2 (hpte v hv)

/-- The third page takes the frame of the first one, and that takes the frame of the second one when it comes back. -/
theorem demand_paging_transparent_three : ∃ r, smallDemand.Path demandMem r ∧
    r.map Prod.fst = [.store 0x1000 5, .store 0x2000 6, .store 0x3000 7, .load 0x1000] ∧
    (Machine.endOf demandMem r).SwappedOut 0x80200 2 ∧
    Machine.observe (fun m a => m.returned 0x80200 2 a) demandMem r = [some 5, some 6, some 7, some 5] := by
  have hrun : (smallDemand.trace demandMem [.store 0x1000 5, .store 0x2000 6, .store 0x3000 7, .load 0x1000]).map
      (fun r => (Machine.endOf demandMem r).pteAt 0x80200 2) = some 0x300 := by
    decide +kernel
  obtain ⟨r, hr, hpte⟩ := Option.map_eq_some_iff.1 hrun
  have hlabels := Machine.trace_labels hr
  obtain ⟨f, -, hobs⟩ := (demand_paging_transparent (.init demandMem_init)).2.2.2.2 r (Machine.trace_path hr)
  refine ⟨r, Machine.trace_path hr, hlabels, ?_, ?_⟩
  · unfold Mem.SwappedOut
    rw [hpte]
    decide
  · rw [hobs, hlabels]
    simp [Access.results, Access.run, update]

end UCore
