import UCore.Mm.RefRuns

namespace UCore
set_option autoImplicit true
open Function (update)

/-- The flag bits of an entry. -/
def pteFlags (pte : BitVec 64) : BitVec 32 := pte.setWidth 32 &&& 0x3ff#32

/-- The translation of an address of the lower half: the physical address and the flags of the entry. -/
def Mem.translate {A : PhysSys} (m : Mem A) (pgdir la : Nat) : Option (Nat × BitVec 32) :=
  if pteValid (m.pteAt pgdir (vpn la)) then
    some (ptePpn (m.pteAt pgdir (vpn la)) * pgSize + la % pgSize, pteFlags (m.pteAt pgdir (vpn la)))
  else none

theorem pteFlags_create (h : PermBits type) : pteFlags (pteCreate ppn type) = pteV ||| type := by
  apply BitVec.eq_of_getLsbD_eq
  intro i hi
  have hmask : (0x3ff#32).getLsbD i = decide (i < 10) := by
    by_cases h10 : i < 10
    · rw [decide_eq_true h10]
      revert i
      decide
    · rw [decide_eq_false h10]
      exact Nat.testBit_lt_two_pow (Nat.lt_of_lt_of_le (by decide) (Nat.pow_le_pow_right (by decide) (Nat.not_lt.1 h10)))
  by_cases h10 : i < 10
  · simp only [pteFlags, pteCreate, BitVec.getLsbD_and, BitVec.getLsbD_setWidth, hmask, BitVec.getLsbD_or,
      BitVec.getLsbD_shiftLeft, BitVec.getLsbD_signExtend]
    simp [hi, h10, show i < 64 by omega]
  · have hv : PermBits pteV := by decide
    rw [pteFlags, BitVec.getLsbD_and, hmask, decide_eq_false h10, Bool.and_false, BitVec.getLsbD_or,
      hv.getLsbD (Nat.not_lt.1 h10), h.getLsbD (Nat.not_lt.1 h10)]
    rfl

section
variable {A : PhysSys} {m m' : Mem A} {role : Nat → Role}

/-- The walk reads the frames only. -/
theorem pteAt_frame (h : m'.frame = m.frame) : m'.pteAt d v = m.pteAt d v := by
  unfold Mem.pteAt
  rw [h]

theorem pteSlot_frame (h : m'.frame = m.frame) : m'.pteSlot d la = m.pteSlot d la := by
  unfold Mem.pteSlot
  rw [h]

theorem translate_congr (h : m'.pteAt d (vpn la) = m.pteAt d (vpn la)) : m'.translate d la = m.translate d la := by
  unfold Mem.translate
  rw [h]

/-- `page_remove_pte` stores into its own entry only. -/
theorem pageRemovePte_frame (h : m.pageRemovePte pt i = some m') :
    m'.frame = m.frame ∨ m'.frame = (m.setEntry pt i 0).frame := by
  unfold Mem.pageRemovePte at h
  split at h
  · obtain ⟨q, -, h⟩ := Option.bind_eq_some_iff.1 h
    cases h
    right
    split <;> rfl
  · cases h
    exact .inl rfl

/-- `page_insert` finds or makes the slot, and in the end stores the new entry into it. -/
theorem pageInsert_frame (h : m.pageInsert d p la perm = some (true, m')) :
    ∃ m₁ pt i, m.getPte d la true = some (some (pt, i), m₁) ∧
      m'.frame = (m₁.setEntry pt i (pteCreate p (pteV ||| perm))).frame := by
  obtain ⟨⟨r, m₁⟩, hg, h⟩ := Option.bind_eq_some_iff.1 h
  cases r with
  | none => cases h
  | some slot =>
    obtain ⟨pt, i⟩ := slot
    obtain ⟨m₂, hm, h⟩ := Option.bind_eq_some_iff.1 h
    cases h
    refine ⟨m₁, pt, i, hg, ?_⟩
    have hframe : m₂.frame = m₁.frame ∨ m₂.frame = (m₁.setEntry pt i 0).frame := by
      split at hm
      · obtain ⟨q, -, hm⟩ := Option.bind_eq_some_iff.1 hm
        split at hm
        · cases hm
          exact .inl rfl
        · have hr := pageRemovePte_frame hm
          exact hr
      · cases hm
        exact .inl rfl
    unfold Mem.setEntry Mem.setFrame
    rcases hframe with hf | hf
    · rw [hf]
    · rw [hf, setEntry_frame_self, Function.update_idem]
      exact Function.update_idem ..

theorem pageInsert_fail (h : m.pageInsert d p la perm = some (false, m')) :
    m.getPte d la true = some (none, m') := by
  obtain ⟨⟨r, m₁⟩, hg, h⟩ := Option.bind_eq_some_iff.1 h
  cases r with
  | none =>
    cases h
    exact hg
  | some slot =>
    obtain ⟨m₂, -, h⟩ := Option.bind_eq_some_iff.1 h
    cases h

/-- `get_pte` without `create` returns the slot that the walk reads. -/
def Mem.SlotsRead (m : Mem A) (d : Nat) : Prop :=
  ∀ la, vpn la < userVpn → m.getPte d la false =
    some ((sv39.walk m.frame d (vpath (vpn la))).map fun f => (f, vpn la % 2 ^ 9), m)

/-- Two addresses share a slot exactly if they are of one page. -/
def Mem.SlotsApart (m : Mem A) (d : Nat) : Prop :=
  ∀ la lb s t, vpn la < userVpn → vpn lb < userVpn → m.getPte d la false = some (some s, m) →
    m.getPte d lb false = some (some t, m) → (s = t ↔ vpn la = vpn lb)

theorem Paged.slotsRead (h : Paged m role) (hd : role d = .node d []) : m.SlotsRead d := by
  intro la hv
  rw [getPte_false, h.pteSlot_eq hd hv]
  rfl

theorem Paged.slotsApart (h : Paged m role) (hd : role d = .node d []) : m.SlotsApart d := by
  intro la lb s t ha hb hs ht
  have hslot (x : Nat) (u : Nat × Nat) (hx : vpn x < userVpn) (hu : m.getPte d x false = some (some u, m)) :
      role u.1 = .node d (vpath (vpn x)) ∧ u.2 = vpn x % 2 ^ 9 := by
    rw [h.slotsRead hd x hx] at hu
    obtain ⟨f, hf, rfl⟩ := Option.map_eq_some_iff.1 (Prod.mk.inj (Option.some.inj hu)).1
    exact ⟨(h.walk_iff hd hx).1 hf, rfl⟩
  obtain ⟨hsr, hsi⟩ := hslot la s ha hs
  obtain ⟨htr, hti⟩ := hslot lb t hb ht
  constructor
  · rintro rfl
    exact vpath_inj (Role.node.inj (hsr.symm.trans htr)).2 (hsi.symm.trans hti)
  · intro he
    rw [← he] at htr hti
    exact Prod.ext (h.tables.inj hsr htr) (hsi.trans hti.symm)

theorem Mem.SlotsRead.of_frame (h : m.SlotsRead d) (hf : m'.frame = m.frame) : m'.SlotsRead d := by
  intro la hv
  have hla := h la hv
  rw [getPte_false] at hla ⊢
  obtain ⟨r, hr, heq⟩ := Option.map_eq_some_iff.1 hla
  rw [pteSlot_frame hf, hr, hf, ← (Prod.mk.inj heq).1]
  rfl

theorem getPte_false_of_frame (hf : m'.frame = m.frame) (h : m'.getPte d la false = some (s, m')) :
    m.getPte d la false = some (s, m) := by
  rw [getPte_false] at h ⊢
  obtain ⟨r, hr, heq⟩ := Option.map_eq_some_iff.1 h
  rw [← pteSlot_frame hf, hr, (Prod.mk.inj heq).1]
  rfl

theorem Mem.SlotsApart.of_frame (h : m.SlotsApart d) (hf : m'.frame = m.frame) : m'.SlotsApart d :=
  fun la lb s t ha hb hs ht =>
    h la lb s t ha hb (getPte_false_of_frame hf hs) (getPte_false_of_frame hf ht)

/-- Pages may have been swapped out, but neither of the tree of `d`, nor the page `p`. -/
structure Spared {A : PhysSys} (d p : Nat) (m m' : Mem A) (role role' : Nat → Role) : Prop where
  paged : Paged m' role'
  node : ∀ f q, role' f = .node d q ↔ role f = .node d q
  frame : ∀ f q, role f = .node d q → m'.frame f = m.frame f
  page : role' p = .leaf

namespace Mem

/-- `alloc_page` returns a free frame or NULL, and what it swaps out before spares the tree of `d` and `p`. -/
def AllocSpares (m : Mem A) (d p : Nat) (role : Nat → Role) : Prop :=
  ∀ r m', m.allocPage = some (r, m') → ∃ m₁ role₁, Spared d p m m₁ role role₁ ∧
    ((r = none ∧ m' = m₁.fail) ∨ ∃ t s, r = some t ∧ A.allocPages m₁.phys 1 = (some t, s) ∧ m' = m₁.setPhys s)

/-- The calls of `alloc_page` by `get_pte` with `create` do so. -/
def GetPteSpares (m : Mem A) (d la p : Nat) (role : Nat → Role) : Prop :=
  m.AllocSpares d p role ∧ ∀ t m₁ role₁, m.nextTable d (pdx1 la) true = some (some t, m₁) → Paged m₁ role₁ →
    role₁ p = .leaf → m₁.AllocSpares d p role₁

end Mem

theorem Spared.refl (d : Nat) (h : Paged m role) (hp : role p = .leaf) : Spared d p m m role role :=
  ⟨h, fun _ _ => Iff.rfl, fun _ _ _ => rfl, hp⟩

/-- Nothing is swapped out where swapping is off or there is no `mm_struct` to swap from. -/
theorem Mem.Plain.allocSpares (hp : m.Plain) (h : Paged m role) (hl : role p = .leaf) : m.AllocSpares d p role :=
  fun _ _ ha => ⟨m, role, .refl d h hl, (allocPages_plain hp ha).imp_right fun ⟨t, s, hr⟩ => ⟨t, s, hr⟩⟩

theorem Mem.Plain.getPteSpares (hp : m.Plain) (h : Paged m role) (hl : role p = .leaf) (hd : role d = .node d [])
    (hv : vpn la < userVpn) : m.GetPteSpares d la p role := by
  refine ⟨hp.allocSpares h hl, fun t m₁ role₁ hn h₁ hl₁ => ?_⟩
  rw [pdx1_eq] at hn
  obtain ⟨role', ht, -⟩ := nextTable_spec h hp hd (show 0 < 2 by decide) (vpath_inWidth hv).1 hn
  exact (ht.vars.plain hp).allocSpares h₁ hl₁

/-- Nor is anything swapped out as long as there is a free page. -/
theorem allocSpares_free (ha : A.allocPages m.phys 1 = (some t, s)) (h : Paged m role) (hl : role p = .leaf) :
    m.AllocSpares d p role := by
  intro r m' hr
  unfold Mem.allocPage Mem.allocPages Mem.allocPagesLoop at hr
  rw [ha] at hr
  cases hr
  exact ⟨m, role, .refl d h hl, .inr ⟨t, s, rfl, ha, rfl⟩⟩

theorem nextTable_phys (ha : A.allocPages m.phys 1 = (some t, s)) (hn : m.nextTable e i true = some (r, m')) :
    m'.phys = m.phys ∨ m'.phys = s := by
  unfold Mem.nextTable at hn
  split at hn
  · obtain ⟨u, -, hu⟩ := Option.map_eq_some_iff.1 hn
    cases hu
    exact .inl rfl
  · rw [if_pos rfl] at hn
    unfold Mem.allocPage Mem.allocPages Mem.allocPagesLoop at hn
    rw [ha] at hn
    obtain ⟨u, hu, hn⟩ := Option.bind_eq_some_iff.1 hn
    cases hu
    obtain ⟨k, -, hn⟩ := Option.bind_eq_some_iff.1 hn
    obtain ⟨w, -, hw⟩ := Option.map_eq_some_iff.1 hn
    cases hw
    exact .inr rfl

theorem getPteSpares_free (ha : A.allocPages m.phys 1 = (some t, s)) (ha' : A.allocPages s 1 = (some t', s'))
    (h : Paged m role) (hl : role p = .leaf) : m.GetPteSpares d la p role := by
  refine ⟨allocSpares_free ha h hl, fun u m₁ role₁ hn h₁ hl₁ => ?_⟩
  rcases nextTable_phys ha hn with hphys | hphys
  · exact allocSpares_free (hphys ▸ ha) h₁ hl₁
  · exact allocSpares_free (hphys ▸ ha') h₁ hl₁

/-- The tree of `d` translates as before, and `p` is still a page. -/
structure Retains {A : PhysSys} (d p : Nat) (m m' : Mem A) (role' : Nat → Role) : Prop where
  paged : Paged m' role'
  root : role' d = .node d []
  page : role' p = .leaf
  same : ∀ v < userVpn, m'.pteAt d v = m.pteAt d v

theorem Spared.retains (h : Spared d p m m' role role') (hm : Paged m role) (hd : role d = .node d []) :
    Retains d p m m' role' :=
  ⟨h.paged, (h.node ..).2 hd, h.page, fun _ hv => hm.pteAt_congr h.paged h.node h.frame hd hv⟩

theorem Retains.tabled (h : Retains d p m m' role') (ht : Tabled d m' m'' role' role'') : Retains d p m m'' role'' :=
  ⟨ht.paged, (ht.keeps d (by rw [h.root]; simp)).trans h.root, (ht.leaf p).2 h.page,
    fun v hv => (ht.same v hv).trans (h.same v hv)⟩

/-- A level of `get_pte` finds a table or adds an empty one, whatever is swapped out elsewhere. -/
theorem nextTable_retains (h : Paged m role) (hs : m.AllocSpares d p role) (hl : role p = .leaf)
    (he : role e = .node d q) (hq : q.length < 2) (hi : i < sv39.width q.length)
    (hn : m.nextTable e i true = some (r, m')) :
    ∃ role', Retains d p m m' role' ∧ ∀ t, r = some t → role' t = .node d (q ++ [i]) := by
  have hd := h.tables.root_role he
  unfold Mem.nextTable at hn
  split at hn
  · rename_i hv
    have hr : role (ptePpn (m.frame e i)) = .node d (q ++ [i]) := h.tables.child e d q i he hq hi hv
    rw [h.kva (by rw [hr]; simp)] at hn
    cases hn
    refine ⟨role, ⟨h, hd, hl, fun _ _ => rfl⟩, fun t ht => ?_⟩
    cases ht
    exact hr
  · rename_i hv
    rw [if_pos rfl] at hn
    obtain ⟨⟨r₁, m₂⟩, hpage, hn⟩ := Option.bind_eq_some_iff.1 hn
    obtain ⟨m₁, role₁, hsp, hres⟩ := hs _ _ hpage
    have hret := hsp.retains h hd
    rcases hres with ⟨rfl, rfl⟩ | ⟨t, s, rfl, ha, rfl⟩
    · cases hn
      exact ⟨role₁, hret.tabled (.fail d hsp.paged), by simp⟩
    · have hv₁ : pteValid (m₁.frame e i) = false := by
        rw [hsp.frame e q he]
        exact Bool.eq_false_iff.2 hv
      have hgrow := hsp.paged.addTable ha ((hsp.node ..).2 he) hq hi hv₁
      have hr : update role₁ t (.node d (q ++ [i])) t = .node d (q ++ [i]) := Function.update_self ..
      obtain ⟨k, hk, hn⟩ := Option.bind_eq_some_iff.1 hn
      have hkt : kva t = some t := hgrow.paged.kva (by rw [hr]; simp)
      obtain rfl := Option.some.inj (hk.symm.trans hkt)
      have hentry : (m₁.addTable s k e i).frame e i = pteCreate k (pteU ||| pteV) := by
        rw [addTable_frame, Function.update_self, Function.update_self]
      have hw : ptePpn (pteCreate k (pteU ||| pteV)) = k := hgrow.paged.ppn_create (by rw [hr]; simp) (by decide)
      change (UCore.kva (ptePpn ((m₁.addTable s k e i).frame e i))).map
        (fun t => (some t, m₁.addTable s k e i)) = some (r, m') at hn
      rw [hentry, hw, hk] at hn
      cases hn
      refine ⟨_, hret.tabled hgrow, fun t ht => ?_⟩
      cases ht
      exact hr

theorem getPte_retains (h : Paged m role) (hs : m.GetPteSpares d la p role) (hl : role p = .leaf)
    (hd : role d = .node d []) (hv : vpn la < userVpn) (hg : m.getPte d la true = some (r, m')) :
    ∃ role', Retains d p m m' role' ∧ ∀ t i, r = some (t, i) →
      role' t = .node d (vpath (vpn la)) ∧ i = vpn la % 2 ^ 9 := by
  obtain ⟨⟨r₁, m₁⟩, h₁, hg⟩ := Option.bind_eq_some_iff.1 hg
  obtain ⟨role₁, hret₁, hr₁⟩ := nextTable_retains h hs.1 hl hd (show 0 < 2 by decide)
    (by rw [pdx1_eq]; exact (vpath_inWidth hv).1) h₁
  cases r₁ with
  | none =>
    cases hg
    exact ⟨role₁, hret₁, by simp⟩
  | some pd0 =>
    obtain ⟨⟨r₂, m₂⟩, h₂, hg⟩ := Option.bind_eq_some_iff.1 hg
    obtain ⟨role₂, hret₂, hr₂⟩ := nextTable_retains hret₁.paged (hs.2 _ _ _ h₁ hret₁.paged hret₁.page) hret₁.page
      (hr₁ pd0 rfl) (show 1 < 2 by decide) (by rw [pdx0_eq]; exact (vpath_inWidth hv).2.1) h₂
    have hret : Retains d p m m₂ role₂ :=
      ⟨hret₂.paged, hret₂.root, hret₂.page, fun v hv => (hret₂.same v hv).trans (hret₁.same v hv)⟩
    cases r₂ with
    | none =>
      cases hg
      exact ⟨role₂, hret, by simp⟩
    | some pt =>
      cases hg
      refine ⟨role₂, hret, fun t i ht => ?_⟩
      cases ht
      refine ⟨?_, ptx_eq la⟩
      rw [hr₂ pt rfl, pdx1_eq, pdx0_eq]
      rfl

/-- As long as `alloc_page` leaves the tree and the page alone, `page_insert` is a point update of the translation,
and changes nothing when it fails; afterwards the slots are those that the walk reads. -/
theorem page_insert_point_update (h : Paged m role) (hs : m.GetPteSpares d la p role) (hd : role d = .node d [])
    (hv : vpn la < userVpn) (hb : PermBits perm) (hpage : role p = .leaf)
    (hi : m.pageInsert d p la perm = some (ok, m')) :
    (ok = true → ∀ lb, vpn lb < userVpn → m'.translate d lb =
      if vpn lb = vpn la then some (p * pgSize + lb % pgSize, pteV ||| perm) else m.translate d lb) ∧
    (ok = false → ∀ lb, vpn lb < userVpn → m'.translate d lb = m.translate d lb) ∧
    m'.SlotsRead d ∧ m'.SlotsApart d := by
  cases ok with
  | false =>
    obtain ⟨role', ht, -⟩ := getPte_retains h hs hpage hd hv (pageInsert_fail hi)
    refine ⟨fun hok => ?_, fun _ lb hlb => translate_congr (ht.same _ hlb), ht.paged.slotsRead ht.root,
      ht.paged.slotsApart ht.root⟩
    cases hok
  | true =>
    obtain ⟨m₁, pt, i, hg, hframe⟩ := pageInsert_frame hi
    obtain ⟨role', ht, hslot⟩ := getPte_retains h hs hpage hd hv hg
    obtain ⟨hpt, rfl⟩ := hslot pt i rfl
    have hd' : role' d = .node d [] := ht.root
    have hp' : role' p = .leaf := ht.page
    have hbits : PermBits (pteV ||| perm) := hb.valid
    have hppn : ptePpn (pteCreate p (pteV ||| perm)) = p := ht.paged.ppn_create (by rw [hp']; simp) hbits
    have hleaf (_ : pteValid (pteCreate p (pteV ||| perm))) : role' (ptePpn (pteCreate p (pteV ||| perm))) = .leaf := by
      rw [hppn, hp']
    have hpaged := ht.paged.setPte (i := vpn la % 2 ^ 9) hpt hleaf
    refine ⟨fun _ lb hlb => ?_, fun hok => ?_, (hpaged.slotsRead hd').of_frame hframe,
      (hpaged.slotsApart hd').of_frame hframe⟩
    rotate_left
    · cases hok
    have hpte := ht.paged.pteAt_setPte hpt hv hleaf hd' hlb
    rw [← pteAt_frame hframe, ht.same _ hlb] at hpte
    simp only [true_and] at hpte
    by_cases heq : vpn lb = vpn la
    · rw [if_pos heq] at hpte ⊢
      rw [Mem.translate, hpte, if_pos (pteValid_create ..), hppn, pteFlags_create hbits, ← BitVec.or_assoc,
        BitVec.or_self]
    · rw [if_neg heq] at hpte ⊢
      exact translate_congr hpte

/-- Swapping is on, and there is an `mm_struct` to swap from. -/
def swapPool : Mem framePool := { poolMem with swapInitOk := true, checkMm := some 1 }

/-- Page 0x80201 is mapped in the empty directory, with swapping off and on. -/
theorem page_insert_point_update_pool :
    (∃ m, poolMem.pageInsert 0x80200 0x80201 userBase readWrite = some (true, m) ∧
      m.translate 0x80200 userBase = some (0x80201 * pgSize, readWrite)) ∧
    ∃ m, swapPool.pageInsert 0x80200 0x80201 userBase readWrite = some (true, m) ∧
      m.translate 0x80200 userBase = some (0x80201 * pgSize, readWrite) := by
  obtain ⟨role, hc⟩ := pageMachine_init poolMem_init
  have hd : role 0x80200 = .node 0x80200 [] := (hc.root _).2 (Finset.mem_singleton_self _)
  have hpage : role 0x80201 = .leaf := by
    refine hc.page_iff.1 ⟨?_, by decide, fun d hd path _ _ hw => ?_⟩
    · show ¬ 0x80201 ∈ [0x80300, 0x80301, 0x80302, 0x80303]
      decide
    · obtain rfl := Finset.mem_singleton.1 hd
      cases path with
      | nil => cases hw
      | cons i path =>
        have hz : poolMem.frame 0x80200 i = 0 := rfl
        have hinv : sv39.valid 0 = false := pteValid_zero
        rw [TableFmt.walk, hz, hinv] at hw
        cases hw
  have hpaged : Paged swapPool role := ⟨hc.tables, hc.free, hc.pool, hc.unused⟩
  constructor
  · have hrun : (poolMem.pageInsert 0x80200 0x80201 userBase readWrite).map Prod.fst = some true := by decide
    obtain ⟨⟨ok, m⟩, hm, rfl⟩ := Option.map_eq_some_iff.1 hrun
    have hs : poolMem.GetPteSpares 0x80200 userBase 0x80201 role := hc.plain.getPteSpares hc.toPaged hpage hd (by decide)
    exact ⟨m, hm, (page_insert_point_update hc.toPaged hs hd (by decide) (by decide) hpage hm).1 rfl userBase (by decide)⟩
  · have hrun : (swapPool.pageInsert 0x80200 0x80201 userBase readWrite).map Prod.fst = some true := by decide
    obtain ⟨⟨ok, m⟩, hm, rfl⟩ := Option.map_eq_some_iff.1 hrun
    have hs : swapPool.GetPteSpares 0x80200 userBase 0x80201 role := getPteSpares_free rfl rfl hpaged hpage
    exact ⟨m, hm, (page_insert_point_update hpaged hs hd (by decide) (by decide) hpage hm).1 rfl userBase (by decide)⟩

end

end UCore
