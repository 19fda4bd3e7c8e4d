import UCore.Mm.SwapOut
import UCore.Mm.Translate

namespace UCore
set_option autoImplicit true
open Function (update)

/-- The memory with swapping off. The references are counted in it as in the memory itself. -/
def Mem.still {A : PhysSys} (m : Mem A) : Mem A := { m with swapInitOk := false }

theorem vpn_lt (h : la < 2 ^ 38) : vpn la < userVpn := by
  unfold vpn userVpn
  omega

theorem vpn_roundDown (addr : Nat) : vpn (roundDown addr pgSize) = vpn addr := by
  unfold vpn roundDown pgSize
  omega

theorem vpn_eq (h : la < 2 ^ 38) : vpn la = la / pgSize := by
  unfold vpn pgSize
  omega

theorem pteValid_swapEntry (v : Nat) : pteValid (Mem.swapEntry v) = false := by
  simp [pteValid, Mem.swapEntry]

theorem swapEntry_toNat (h : v < 2 ^ 38) : (Mem.swapEntry v >>> 8).toNat = v / pgSize + 1 := by
  have hlt : v / pgSize + 1 < 2 ^ 56 := by
    unfold pgSize
    omega
  rw [Mem.swapEntry, BitVec.toNat_ushiftRight, BitVec.toNat_shiftLeft, BitVec.toNat_ofNat, Nat.shiftLeft_eq,
    Nat.shiftRight_eq_div_pow, Nat.mod_eq_of_lt (a := v / pgSize + 1) (by omega), Nat.mod_eq_of_lt (by omega),
    Nat.mul_div_cancel _ (by decide)]

theorem swapEntry_ne_zero (h : v < 2 ^ 38) : Mem.swapEntry v ≠ 0 := by
  intro hz
  have hn := swapEntry_toNat h
  rw [hz] at hn
  exact absurd hn (Nat.ne_of_lt (Nat.succ_pos _))

/-- The entry depends on the page number only. -/
theorem swapEntry_vpn (h : la < 2 ^ 38) : Mem.swapEntry la = Mem.swapEntry (vpn la * pgSize) := by
  unfold Mem.swapEntry
  rw [vpn_eq h, Nat.mul_div_cancel _ (by decide)]

section
variable {A : PhysSys} {m m' : Mem A} {role : Nat → Role} {dirs : Finset Nat} {K : Nat → Prop}

/-- What `swap_out` does when it returns. -/
theorem swapOut_cases (h : m.swapOut (some mm) = some m') : ∃ p rest d pt i offset, m.praList = p :: rest ∧
    (m.mms mm).pgdir = some d ∧ m.pteSlot d (m.praVaddr p) = some (some (pt, i)) ∧
    pteValid (m.frame pt i) ∧ m.swapOffset (Mem.swapEntry (m.praVaddr p)) = some offset ∧
    m' = (Mem.setEntry { m with praList := rest, disk := update m.disk offset (m.frame p) } pt i
      (Mem.swapEntry (m.praVaddr p))).freePage p := by
  obtain ⟨⟨p, m₁⟩, hv, h⟩ := Option.bind_eq_some_iff.1 h
  unfold Mem.swapOutVictim at hv
  split at hv
  · split at hv
    · cases hv
    · rename_i hq
      cases hv
      obtain ⟨d, hd, h⟩ := Option.bind_eq_some_iff.1 h
      obtain ⟨slot, hs, h⟩ := Option.bind_eq_some_iff.1 h
      obtain ⟨⟨pt, i⟩, rfl, he⟩ := Option.bind_eq_some_iff.1 h
      dsimp only at he
      split at he
      · rename_i hval
        obtain ⟨m₂, hw, he⟩ := Option.bind_eq_some_iff.1 he
        obtain ⟨offset, ho, hw⟩ := Option.bind_eq_some_iff.1 hw
        cases hw
        cases he
        exact ⟨_, _, d, pt, i, offset, hq, hd, hs, hval, ho, rfl⟩
      · cases he
  · cases hv

theorem Counted.paged (h : Counted dirs K m.still role) : Paged m role := ⟨h.tables, h.free, h.pool, h.unused⟩

/-- Only the tables, the allocator and the references matter to the counts. -/
theorem Counted.congr (h : Counted dirs K m role) (hf : m'.frame = m.frame) (hp : m'.phys = m.phys)
    (hr : m'.ref = m.ref) (ho : m'.swapInitOk = m.swapInitOk) : Counted dirs K m' role := by
  refine ⟨⟨?_, ?_, ?_, ?_⟩, ho.trans h.off, h.root, h.kernel, fun p hp => ?_⟩
  · rw [hf]
    exact h.tables
  · rw [hp]
    exact h.free
  · rw [hp]
    exact h.pool
  · rw [hr]
    exact h.unused
  · rw [hr, h.exact p hp]
    refine congrArg _ (mapCount_congr (fun d _ v _ => ?_) p)
    rw [pteAt_frame hf]

/-- The only entry of a page is made invalid, and the page is given back. -/
theorem Counted.evict (h : Counted dirs K m.still role) (hf : role f = .node d (vpath v)) (hv : v < userVpn)
    (hmap : m.mapped (d, v) = some p) (hsole : ∀ x ∈ userSlots dirs, m.mapped x = some p → x = (d, v))
    (he : pteValid e = false) :
    Counted dirs K ((m.setEntry f (v % 2 ^ 9) e).freePage p).still (update role p .free) := by
  have hd := (h.root d).1 (h.tables.root_role hf)
  have hp : role p = .leaf := (h.mapped_leaf hd hv hmap).1
  have hleaf (hc : pteValid e) : role (ptePpn e) = .leaf := by
    rw [he] at hc
    cases hc
  have hpte (c w : Nat) (hc : c ∈ dirs) (hw : w < userVpn) :
      (m.setEntry f (v % 2 ^ 9) e).pteAt c w = if c = d ∧ w = v then e else m.pteAt c w :=
    h.pteAt_setPte hf hv hleaf ((h.root c).2 hc) hw
  have hzero : (m.still.setEntry f (v % 2 ^ 9) e).mapCount dirs p = 0 := by
    apply tally_eq_zero.2
    intro x hx hm
    obtain ⟨hc, hw⟩ := mem_userSlots.1 hx
    have hm' : pteFrame ((m.setEntry f (v % 2 ^ 9) e).pteAt x.1 x.2) = some p := hm
    rw [hpte x.1 x.2 hc hw] at hm'
    split at hm'
    · rw [pteFrame, if_neg (by rw [he]; simp)] at hm'
      cases hm'
    · rename_i hne
      exact hne (Prod.ext_iff.1 (hsole x hx hm'))
  have hcount (q : Nat) (hq : q ≠ p) : (m.still.setEntry f (v % 2 ^ 9) e).mapCount dirs q =
      m.still.mapCount dirs q := by
    have hc := h.count_setPte hf hv hleaf q
    have hmap' : m.still.mapped (d, v) = some p := hmap
    have hnone : pteFrame e = none := if_neg (by rw [he]; simp)
    rw [hmap', hnone] at hc
    simpa [hq.symm] using hc
  have hst := h.store (i := v % 2 ^ 9) hf hleaf (update m.ref p 0) ?_ ?_
  · obtain ⟨hfree, -⟩ := hst.freePage hp hzero
    refine hfree.congr rfl rfl ?_ rfl
    exact (Function.update_idem ..).symm
  · intro q hq
    by_cases hqp : q = p
    · rw [hqp, Function.update_self]
    · rw [Function.update_of_ne hqp]
      exact h.unused q hq
  · intro q hq
    by_cases hqp : q = p
    · rw [hqp, Function.update_self, hzero]
      rfl
    · rw [Function.update_of_ne hqp, hcount q hqp]
      exact h.exact q hq

end

/-- `swap_out` has written the page `p` of the page number `v` of the directory `d` to the disk. -/
structure Evicted {A : PhysSys} (dirs : Finset Nat) (K : Nat → Prop) (d v p : Nat) (m m' : Mem A)
    (role : Nat → Role) : Prop extends Counted dirs K m'.still (update role p .free) where
  mem : (d, v) ∈ userSlots dirs
  leaf : role p = .leaf
  mapped : m.mapped (d, v) = some p
  queue : m.praList = p :: m'.praList
  slot : v + 1 < m.maxSwapOffset
  disk : m'.disk = update m.disk (v + 1) (m.frame p)
  pte : ∀ c ∈ dirs, ∀ w < userVpn, m'.pteAt c w =
    if c = d ∧ w = v then Mem.swapEntry (v * pgSize) else m.pteAt c w
  frame : ∀ f, role f ≠ .node d (vpath v) → m'.frame f = m.frame f
  mms : m'.mms = m.mms
  praVaddr : m'.praVaddr = m.praVaddr
  swapInitOk : m'.swapInitOk = m.swapInitOk
  checkMm : m'.checkMm = m.checkMm
  maxSwapOffset : m'.maxSwapOffset = m.maxSwapOffset

section
variable {A : PhysSys} {m m' : Mem A} {role : Nat → Role} {dirs : Finset Nat} {K : Nat → Prop}

/-- `swap_out` of a page that is mapped at its own address only. -/
theorem Counted.swapOut (h : Counted dirs K m.still role) (hs : m.swapOut (some mm) = some m')
    (hpg : (m.mms mm).pgdir = some d) (hd : d ∈ dirs) (hq : m.praList.head? = some p)
    (ha : m.praVaddr p < 2 ^ 38) (hmap : m.mapped (d, vpn (m.praVaddr p)) = some p)
    (hsole : ∀ x ∈ userSlots dirs, m.mapped x = some p → x = (d, vpn (m.praVaddr p))) :
    Evicted dirs K d (vpn (m.praVaddr p)) p m m' role := by
  obtain ⟨q, rest, d', pt, i, offset, hql, hpg', hslot, -, ho, rfl⟩ := swapOut_cases hs
  obtain rfl := Option.some.inj (hpg.symm.trans hpg')
  rw [hql] at hq
  obtain rfl : q = p := Option.some.inj hq
  have hv := vpn_lt ha
  have hroot := (h.root d).2 hd
  have hsl : m.pteSlot d (m.praVaddr q) = some ((sv39.walk m.frame d (vpath (vpn (m.praVaddr q)))).map
      fun f => (f, vpn (m.praVaddr q) % 2 ^ 9)) := h.pteSlot_eq hroot hv
  rw [hsl] at hslot
  obtain ⟨f, hw, he⟩ := Option.map_eq_some_iff.1 (Option.some.inj hslot)
  cases he
  have hf : role pt = .node d (vpath (vpn (m.praVaddr q))) := (h.walk_iff hroot hv).1 hw
  unfold Mem.swapOffset at ho
  rw [swapEntry_toNat ha, ← vpn_eq ha] at ho
  dsimp only at ho
  split at ho
  · rename_i hlt
    cases ho
    have hinv (hc : pteValid (Mem.swapEntry (m.praVaddr q))) :
        role (ptePpn (Mem.swapEntry (m.praVaddr q))) = .leaf := by
      rw [pteValid_swapEntry] at hc
      cases hc
    refine ⟨(h.evict hf hv hmap hsole (pteValid_swapEntry _)).congr rfl rfl rfl rfl,
      mem_userSlots.2 ⟨hd, hv⟩, (h.mapped_leaf hd hv hmap).1, hmap, hql, hlt.2, rfl, fun c hc w hw => ?_,
        fun g hg => ?_, rfl, rfl, rfl, rfl, rfl⟩
    · rw [← swapEntry_vpn ha]
      exact h.pteAt_setPte hf hv hinv ((h.root c).2 hc) hw
    · refine setEntry_frame_of_ne _ _ _ ?_
      rintro rfl
      exact hg hf
  · cases ho

/-- What is still mapped was mapped before, and is not what has gone. -/
theorem Evicted.mapped_of (h : Evicted dirs K d v p m m' role) (hx : x ∈ userSlots dirs)
    (hm : m'.mapped x = some q) : x ≠ (d, v) ∧ m.mapped x = some q := by
  obtain ⟨hc, hw⟩ := mem_userSlots.1 hx
  rw [Mem.mapped, h.pte _ hc _ hw] at hm
  split at hm
  · rw [pteFrame, if_neg (by rw [pteValid_swapEntry]; simp)] at hm
    cases hm
  · rename_i hne
    exact ⟨fun he => hne (Prod.ext_iff.1 he), hm⟩

theorem Evicted.mapped_ne (h : Evicted dirs K d v p m m' role) (hx : x ∈ userSlots dirs) (hne : x ≠ (d, v)) :
    m'.mapped x = m.mapped x := by
  obtain ⟨hc, hw⟩ := mem_userSlots.1 hx
  rw [Mem.mapped, h.pte _ hc _ hw, if_neg fun he => hne (Prod.ext_iff.2 he)]
  rfl

end

end UCore
