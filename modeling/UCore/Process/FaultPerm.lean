import UCore.Mm.SwapSlots
import UCore.Process.LoadIcode

namespace UCore
set_option autoImplicit true
open Function (update)

/-- The entry is a valid leaf for the user with the rights that the flags of an area give, and has the bits that
`load_icode` gives to a segment with these flags. -/
structure PteAgrees (pte : BitVec 64) (vmFlags : BitVec 32) : Prop where
  valid : pteFlags pte &&& pteV ≠ 0
  user : pteFlags pte &&& pteU ≠ 0
  leaf : pteFlags pte &&& (pteR ||| pteX) ≠ 0
  read : pteFlags pte &&& pteR ≠ 0 ↔ vmFlags &&& (vmRead ||| vmWrite) ≠ 0
  write : pteFlags pte &&& pteW ≠ 0 ↔ vmFlags &&& vmWrite ≠ 0
  exec : pteFlags pte &&& pteX ≠ 0 ↔ vmFlags &&& vmExec ≠ 0
  segment : pteFlags pte = Mem.segPerm vmFlags

/-- The entry was stored into the slot that `get_pte` found for the address. -/
def Mem.Installed {A : PhysSys} (m' : Mem A) (d la : Nat) (e : BitVec 64) : Prop :=
  ∃ (m₁ m₂ : Mem A) (pt i : Nat), m₁.getPte d la true = some (some (pt, i), m₂) ∧ m'.frame = (m₂.setEntry pt i e).frame

section
variable {A : PhysSys} {m m' m₁ m₂ m₃ m₄ : Mem A} {vma : Vma} {role : Nat → Role} {dirs : Finset Nat} {K : Nat → Prop}
  {C : Mem A → Prop} {P Q : Mem A → (Nat → Role) → Prop}

/-- The bits that `do_pgfault` installs are right for the areas that can be written and not executed. -/
theorem pteAgrees_fault (t : Nat) (vma : Vma) : PteAgrees (pteCreate t (pteV ||| vma.faultPerm)) vma.vmFlags ↔
    vma.vmFlags &&& vmWrite ≠ 0 ∧ vma.vmFlags &&& vmExec = 0 := by
  have hbits : PermBits (pteV ||| vma.faultPerm) := by
    unfold Vma.faultPerm
    split <;> decide
  have hflags : pteFlags (pteCreate t _) = _ := pteFlags_create hbits
  by_cases hw : vma.vmFlags &&& vmWrite ≠ 0
  · have hperm : pteV ||| (pteV ||| vma.faultPerm) = pteU ||| readWrite := by
      rw [Vma.faultPerm, if_pos hw]
      decide
    rw [hperm] at hflags
    constructor
    · intro h
      refine ⟨hw, ?_⟩
      by_contra hx
      have hexec := h.exec.2 hx
      rw [hflags] at hexec
      exact hexec (by decide)
    · rintro ⟨-, hx⟩
      have hread : vma.vmFlags &&& (vmRead ||| vmWrite) ≠ 0 := by
        rw [BitVec.and_or_distrib_left]
        exact fun hz => hw (BitVec.or_eq_zero_iff.1 hz).2
      refine ⟨?_, ?_, ?_, iff_of_true ?_ hread, iff_of_true ?_ hw, iff_of_false ?_ (fun h => h hx), ?_⟩ <;>
        rw [hflags]
      · decide
      · decide
      · decide
      · decide
      · decide
      · decide
      · unfold Mem.segPerm
        rw [if_pos hw, if_neg (not_not.2 hx)]
        split <;> decide
  · refine iff_of_false (fun h => ?_) fun h => hw h.1
    have hperm : pteV ||| (pteV ||| vma.faultPerm) = pteV ||| pteU := by
      rw [Vma.faultPerm, if_neg hw]
      decide
    have hleaf := h.leaf
    rw [hflags, hperm] at hleaf
    exact hleaf (by decide)

/-- `pgdir_alloc_page` that succeeds. -/
theorem pgdirAllocPage_inserts (h : m.pgdirAllocPage d la perm = some (some t, m')) :
    ∃ m₁ m₂, m.allocPage = some (some t, m₁) ∧ m₁.pageInsert d t la perm = some (true, m₂) ∧
      m'.frame = m₂.frame := by
  obtain ⟨⟨p, m₁⟩, ha, h⟩ := Option.bind_eq_some_iff.1 h
  cases p with
  | none => cases h
  | some p =>
    obtain ⟨⟨ok, m₂⟩, hi, h⟩ := Option.bind_eq_some_iff.1 h
    cases ok with
    | false => cases h
    | true =>
      dsimp only at h
      split at h
      · split at h
        · obtain ⟨m₃, hq, h⟩ := Option.bind_eq_some_iff.1 h
          unfold Mem.swapMapSwappable at hq
          split at hq
          · cases hq
            split at h
            · cases h
              exact ⟨m₁, _, ha, hi, rfl⟩
            · cases h
          · cases hq
        · cases h
          exact ⟨m₁, _, ha, hi, rfl⟩
      · cases h
        exact ⟨m₁, _, ha, hi, rfl⟩

/-- Where `do_pgfault` gets the page that it maps. -/
def FaultPage (m : Mem A) (mm la pt i t : Nat) (m' : Mem A) : Prop :=
  m.frame pt i = 0 ∧ m.allocPage = some (some t, m') ∨
    m.frame pt i ≠ 0 ∧ m.swapInitOk = true ∧ m.swapIn mm la = some (t, m')

/-- The way through `do_pgfault` when it returns 0. -/
theorem doPgfault_inserts (h : m.doPgfault (some mm) addr = some (0, m'))
    (hv : m.findVma (some mm) addr = (some vma, m₁)) (hpg : (m₁.mms mm).pgdir = some d) :
    ∃ m₂ pt i m₃ t m₄, vma.vmStart ≤ addr ∧
      m₁.getPte d (roundDown addr pgSize) true = some (some (pt, i), m₂) ∧
      FaultPage m₂ mm (roundDown addr pgSize) pt i t m₃ ∧
      m₃.pageInsert d t (roundDown addr pgSize) vma.faultPerm = some (true, m₄) ∧ m'.frame = m₄.frame := by
  have hno : (-eNoMem : Int) ≠ 0 ∧ (-eInval : Int) ≠ 0 := by decide
  unfold Mem.doPgfault at h
  rw [hv] at h
  dsimp only at h
  split at h
  · exact absurd (Prod.mk.inj (Option.some.inj h)).1 hno.2
  · rename_i hle
    rw [Option.bind_eq_bind, Option.bind_some, hpg, Option.bind_eq_bind, Option.bind_some] at h
    obtain ⟨⟨slot, m₂⟩, hg, h⟩ := Option.bind_eq_some_iff.1 h
    cases slot with
    | none => exact absurd (Prod.mk.inj (Option.some.inj h)).1 hno.1
    | some slot =>
      obtain ⟨pt, i⟩ := slot
      dsimp only at h
      split at h
      · rename_i hz
        obtain ⟨⟨p, m₅⟩, ha, h⟩ := Option.bind_eq_some_iff.1 h
        cases p with
        | none => exact absurd (Prod.mk.inj (Option.some.inj h)).1 hno.1
        | some p =>
          cases h
          obtain ⟨m₃, m₄, hpage, hi, hframe⟩ := pgdirAllocPage_inserts ha
          exact ⟨m₂, pt, i, m₃, p, m₄, Nat.not_lt.1 hle, hg, .inl ⟨hz, hpage⟩, hi, hframe⟩
      · rename_i hne
        split at h
        · rename_i hon
          obtain ⟨⟨t, m₃⟩, hs, h⟩ := Option.bind_eq_some_iff.1 h
          obtain ⟨⟨ok, m₄⟩, hi, h⟩ := Option.bind_eq_some_iff.1 h
          cases ok with
          | false => exact absurd (Prod.mk.inj (Option.some.inj h)).1 hno.1
          | true =>
            obtain ⟨m₅, hq, h⟩ := Option.bind_eq_some_iff.1 h
            cases h
            refine ⟨m₂, pt, i, m₃, t, m₄, Nat.not_lt.1 hle, hg, .inr ⟨hne, hon, hs⟩, hi, ?_⟩
            unfold Mem.swapMapSwappable at hq
            split at hq
            · cases hq
              rfl
            · cases hq
        · exact absurd (Prod.mk.inj (Option.some.inj h)).1 hno.1

/-- The new entry is the one of the address afterwards, in well-formed tables without swapping. -/
theorem Paged.insert_pteAt (h : Paged m role) (hoff : m.swapInitOk = false)
    (hd : role d = .node d []) (hv : vpn la < userVpn) (hb : PermBits perm)
    (hg : m.getPte d la true = some (some (pt, i), m₂)) (hp : FaultPage m₂ mm la pt i t m₃)
    (hi : m₃.pageInsert d t la perm = some (true, m₄)) : m₄.pteAt d (vpn la) = pteCreate t (pteV ||| perm) := by
  have hplain : m.Plain := .inl hoff
  obtain ⟨role₂, htab, -, hslot⟩ := getPte_spec h hplain hd hv hg
  obtain ⟨hpt, rfl⟩ := hslot pt i rfl
  have hd₂ : role₂ d = .node d [] := (htab.keeps d (by rw [hd]; simp)).trans hd
  have hplain₂ := htab.vars.plain hplain
  rcases hp with ⟨hz, ha⟩ | ⟨-, hon, -⟩
  · rcases allocPages_plain hplain₂ ha with ⟨hno, -⟩ | ⟨p, s, hp, ha, rfl⟩
    · cases hno
    · cases hp
      have htook := htab.paged.took ha hd₂
      have hinv : pteValid (m₂.pteAt d (vpn la)) = false := by
        rw [htab.paged.pteAt_node hpt hv, hz]
        rfl
      rcases htook.pageInsert (htook.vars.plain hplain₂) hd₂ hv hinv hb hi with ⟨hno, -⟩ | ⟨-, -, role₄, hgain⟩
      · cases hno
      · exact hgain.new
  · rw [htab.vars.swapInitOk, hoff] at hon
    cases hon

theorem SwapInv.pageInsert_pteAt (hQ : SwapInv dirs K C Q) (h : Q m role) (ht : Fresh dirs t m role)
    (hd : role d = .node d []) (hv : vpn la < userVpn) (hb : PermBits perm)
    (hc : ∀ m₁, m.GetPteSwaps d la m₁ → C m₁) (hi : m.pageInsert d t la perm = some (true, m')) :
    m'.pteAt d (vpn la) = pteCreate t (pteV ||| perm) := by
  obtain ⟨m₁, pt, i, hg, hframe⟩ := pageInsert_frame hi
  obtain ⟨role₁, pt', ⟨h₁, ht₁, -⟩, hk, hslot, hpt⟩ := (hQ.fresh t (m.frame t)).getPte ⟨h, ht, rfl⟩ hd hv hc hg
  cases hslot
  have he := (pteFrame_eq_some.1 (pteFrame_create (hQ.counted h₁).toPaged ht₁.leaf hb)).2
  rw [pteAt_frame hframe, (hQ.paged h₁).pteAt_setPte hpt hv (fun _ => by rw [he, ht₁.leaf]) (hk _ _ _ hd) hv,
    if_pos ⟨rfl, rfl⟩]

/-- The same while swapping is on. -/
theorem FaultInv.insert_pteAt (hF : FaultInv dirs K C mm d P Q) (h : P m role) (hv : vpn la < userVpn)
    (hb : PermBits perm) (hcg : ∀ m', m.GetPteSwaps d la m' → C m')
    (hcz : ∀ m', m₂.frame pt i = 0 → m₂.PgdirAllocPageSwaps d la m' → C m')
    (hcs : ∀ m', m₂.frame pt i ≠ 0 → m₂.SwapInSwaps mm d la m' → C m')
    (hg : m.getPte d la true = some (some (pt, i), m₂)) (hp : FaultPage m₂ mm la pt i t m₃)
    (hi : m₃.pageInsert d t la perm = some (true, m₄)) : m₄.pteAt d (vpn la) = pteCreate t (pteV ||| perm) := by
  have hroot := ((hF.before.counted h).root d).2 hF.dir
  obtain ⟨role₂, pt', h₂, hk₂, -, -⟩ := hF.before.getPte h hroot hv hcg hg
  rcases hp with ⟨hz, ha⟩ | ⟨hne, -, hs⟩
  · obtain ⟨t', role₃, ht', h₃, ht, hk₃⟩ := hF.allocPage h₂ (fun m' hs => hcz m' hz (.inl hs)) ha
    cases ht'
    exact hF.after.pageInsert_pteAt h₃ ht (hk₃ _ _ _ (hk₂ _ _ _ hroot)) hv hb
      (fun m' hs => hcz m' hz (.inr ⟨t, m₃, ha, hs⟩)) hi
  · obtain ⟨m₅, role₅, offset, h₅, ht, hk₅, -, rfl⟩ := hF.swapIn h₂ hv (fun m' h => hcs m' hne (.inl h)) hs
    exact hF.after.pageInsert_pteAt (hF.write h₅ ht) (ht.write (hF.after.counted h₅) _)
      (hk₅ _ _ _ (hk₂ _ _ _ hroot)) hv hb (fun m' h => hcs m' hne (.inr ⟨t, _, hs, h⟩)) hi

/-- The entry that a fault installs agrees with the area exactly if it can be written and not executed, and it is
the entry of the address afterwards. -/
theorem pgfault_perm_iff (hv : (m.findVma (some mm) addr).1 = some vma) (hpg : (m.mms mm).pgdir = some d)
    (h : m.doPgfault (some mm) addr = some (0, m')) : ∃ e, m'.Installed d (roundDown addr pgSize) e ∧
      (PteAgrees e vma.vmFlags ↔ vma.vmFlags &&& vmWrite ≠ 0 ∧ vma.vmFlags &&& vmExec = 0) ∧
      (∀ role, Paged m role → role d = .node d [] → m.swapInitOk = false → addr < 2 ^ 38 →
        m'.pteAt d (vpn addr) = e) ∧
      ∀ dirs K mms, ((slotMachine A dirs K mms).restrict (SwapOp.SwapsOwn dirs)).Reachable m →
        (SwapOp.doPgfault mm addr).Among mms → (SwapOp.doPgfault mm addr).SwapsOwn dirs m →
        m'.pteAt d (vpn addr) = e := by
  cases hf : m.findVma (some mm) addr with
  | mk r m₁ =>
    rw [hf] at hv
    obtain rfl : r = some vma := hv
    have hpg₁ : (m₁.mms mm).pgdir = some d := by
      rcases findVma_cases hf with rfl | ⟨c, rfl⟩
      · exact hpg
      · rw [setMm_self]
        exact hpg
    obtain ⟨m₂, pt, i, m₃, t, m₄, hle, hg, hp, hi, hframe⟩ := doPgfault_inserts h hf hpg₁
    have hb := permBits_faultPerm vma
    refine ⟨pteCreate t (pteV ||| vma.faultPerm), ?_, pteAgrees_fault t vma, ?_, ?_⟩
    · obtain ⟨m₅, pt', i', hg', hframe'⟩ := pageInsert_frame hi
      exact ⟨m₃, m₅, pt', i', hg', hframe.trans hframe'⟩
    · intro role hm hd hoff ha
      have h₁ : Paged m₁ role ∧ m₁.swapInitOk = false := by
        rcases findVma_cases hf with rfl | ⟨c, rfl⟩
        · exact ⟨hm, hoff⟩
        · exact ⟨(hm.setMm mm _).paged, hoff⟩
      have hla := Nat.lt_of_le_of_lt (Nat.sub_le addr (addr % pgSize)) ha
      rw [pteAt_frame hframe, ← vpn_roundDown addr]
      exact h₁.1.insert_pteAt h₁.2 hd (vpn_lt hla) hb hg hp hi
    · intro dirs K mms hr ha hown
      obtain ⟨⟨role, hs⟩, hms⟩ := slotMachine_slotted hr
      obtain ⟨c, hd, hpgc⟩ := hms mm ha.1
      cases hpg.symm.trans hpgc
      have h₁ : Slotted dirs K m₁ role ∧ m.Keeps dirs m₁ := by
        rcases findVma_cases hf with rfl | ⟨c, rfl⟩
        · exact ⟨hs, .refl ..⟩
        · exact hs.cache c
      have hla := Nat.lt_of_le_of_lt (Nat.sub_le addr (addr % pgSize)) ha.2
      have hswap (m₅ : Mem A) (hsw : m.DoPgfaultSwaps mm d addr m₅) (mm' : Nat) (hc : m.checkMm = some mm') :
          m₅.SwapsOwn dirs mm' := hown mm' m₅ ⟨hc, d, hpg, hsw⟩
      have hstart := Nat.not_lt.2 hle
      rw [pteAt_frame hframe, ← vpn_roundDown addr]
      exact (Slotted.faultInv K m hd hpg).insert_pteAt h₁ (vpn_lt hla) hb
        (fun m₅ hsw => hswap m₅ ⟨vma, m₁, hf, hstart, .inl hsw⟩)
        (fun m₅ hz hsw => hswap m₅ ⟨vma, m₁, hf, hstart, .inr ⟨pt, i, m₂, hg, .inl ⟨hz, hsw⟩⟩⟩)
        (fun m₅ hne hsw => hswap m₅ ⟨vma, m₁, hf, hstart, .inr ⟨pt, i, m₂, hg, .inr ⟨hne, hsw⟩⟩⟩) hg hp hi

end

theorem pgfault_perm_iff_two : ∃ m' e, twoMem.doPgfault (some 1) 0x1000 = some (0, m') ∧
    m'.Installed 0x80200 0x1000 e ∧ PteAgrees e (vmRead ||| vmWrite) := by
  have hrun : (twoMem.doPgfault (some 1) 0x1000).map Prod.fst = some 0 := by decide
  obtain ⟨⟨ret, m'⟩, hm, hret⟩ := Option.map_eq_some_iff.1 hrun
  obtain rfl : ret = 0 := hret
  have hvma : (twoMem.findVma (some 1) 0x1000).1 = some ⟨0, 0x1000, 0x2000, vmRead ||| vmWrite⟩ := rfl
  obtain ⟨e, he, hiff, -⟩ := pgfault_perm_iff hvma rfl hm
  exact ⟨m', e, hm, he, hiff.2 (by decide)⟩

/-- The memory `twoMem` with other rights for the page, and without swapping. -/
def rightsMem (vmFlags : BitVec 32) : Mem framePool :=
  { twoMem with
    swapInitOk := false
    mms := fun mm => ⟨[⟨0, 0x1000, 0x2000, vmFlags⟩], none, some (0x801ff + mm), 0, true, 0⟩ }

/-- A page that may be read gets an entry that is no leaf, and one that may be executed cannot be. -/
theorem pgfault_perm_wrong :
    (∃ m', (rightsMem vmRead).doPgfault (some 1) 0x1000 = some (0, m') ∧
      pteFlags (m'.pteAt 0x80200 1) = pteU ||| pteV ∧ Mem.segPerm vmRead = pteU ||| pteV ||| pteR ∧
      ¬ PteAgrees (m'.pteAt 0x80200 1) vmRead) ∧
    ∃ m', (rightsMem (vmRead ||| vmWrite ||| vmExec)).doPgfault (some 1) 0x1000 = some (0, m') ∧
      pteFlags (m'.pteAt 0x80200 1) = pteU ||| readWrite ∧
      ¬ PteAgrees (m'.pteAt 0x80200 1) (vmRead ||| vmWrite ||| vmExec) := by
  have hrun : ((rightsMem vmRead).doPgfault (some 1) 0x1000).map (fun r => (r.1, pteFlags (r.2.pteAt 0x80200 1))) =
      some (0, pteU ||| pteV) := by
    decide
  have hrun' : ((rightsMem (vmRead ||| vmWrite ||| vmExec)).doPgfault (some 1) 0x1000).map
      (fun r => (r.1, pteFlags (r.2.pteAt 0x80200 1))) = some (0, pteU ||| readWrite) := by
    decide
  constructor
  · obtain ⟨⟨ret, m'⟩, hm, hval⟩ := Option.map_eq_some_iff.1 hrun
    obtain ⟨rfl, hflags⟩ := Prod.mk.inj hval
    refine ⟨m', hm, hflags, by decide, fun h => ?_⟩
    have hleaf := h.leaf
    rw [hflags] at hleaf
    exact hleaf (by decide)
  · obtain ⟨⟨ret, m'⟩, hm, hval⟩ := Option.map_eq_some_iff.1 hrun'
    obtain ⟨rfl, hflags⟩ := Prod.mk.inj hval
    refine ⟨m', hm, hflags, fun h => ?_⟩
    have hexec := h.exec.2 (by decide)
    rw [hflags] at hexec
    exact hexec (by decide)

end UCore
