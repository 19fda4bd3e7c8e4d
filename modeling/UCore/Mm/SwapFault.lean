import UCore.Mm.SwapCalls
import UCore.Mm.VmmSpec

namespace UCore
set_option autoImplicit true
open Function (update)

/-- The page is allocated, but not mapped yet. -/
structure Fresh {A : PhysSys} (dirs : Finset Nat) (t : Nat) (m : Mem A) (role : Nat → Role) : Prop where
  leaf : role t = .leaf
  unmapped : ∀ x ∈ userSlots dirs, m.mapped x ≠ some t

/-- The page `t` has been mapped at the page number `v` of the directory `d`, whatever was there. -/
structure Inserted {A : PhysSys} (dirs : Finset Nat) (K : Nat → Prop) (d v t : Nat) (m m' : Mem A)
    (role role' : Nat → Role) : Prop extends Counted dirs K m'.still role' where
  vars : SameVars m m'
  new : m'.mapped (d, v) = some t
  pte : ∀ c ∈ dirs, ∀ w < userVpn, ¬ (c = d ∧ w = v) → m'.pteAt c w = m.pteAt c w
  frame : ∀ f, role f ≠ .node d (vpath v) → m'.frame f = m.frame f

section
variable {A : PhysSys} {m m' m₁ m₂ : Mem A} {role role' role₁ : Nat → Role} {dirs : Finset Nat} {K : Nat → Prop}

theorem SameVars.pageRemovePte (h : m.pageRemovePte f i = some m') : SameVars m m' := by
  unfold Mem.pageRemovePte at h
  split at h
  · obtain ⟨q, -, h⟩ := Option.bind_eq_some_iff.1 h
    cases h
    refine .trans ?_ (.setEntry ..)
    split
    · exact .trans (.setRef ..) (.freePage ..)
    · exact .setRef ..
  · cases h
    exact .refl m

/-- `page_remove_pte` does not look at whether swapping is on. -/
theorem pageRemovePte_still (m : Mem A) (f i : Nat) :
    m.still.pageRemovePte f i = (m.pageRemovePte f i).map Mem.still := by
  unfold Mem.pageRemovePte
  have hframe : m.still.frame = m.frame := rfl
  have href (q : Nat) (x : Int) : m.still.setRef q x = (m.setRef q x).still := rfl
  rw [hframe]
  split
  · cases kva (ptePpn (m.frame f i)) with
    | none => rfl
    | some q =>
      simp only [Option.bind_eq_bind, Option.bind_some, Option.map_some, Option.some.injEq]
      have hself : (m.still.setRef q (m.still.ref q - 1)).ref q = (m.setRef q (m.ref q - 1)).ref q := rfl
      rw [hself]
      split <;> rfl
  · rfl

/-- What `page_insert` stores into the slot. -/
theorem Counted.insertAt (h : Counted dirs K m.still role) (hf : role f = .node d (vpath v)) (hv : v < userVpn)
    (hp : role p = .leaf) (hb : PermBits perm)
    (hm : (if pteValid (m.frame f (v % 2 ^ 9)) then do
        let q ← kva (ptePpn (m.frame f (v % 2 ^ 9)))
        if q = p then
          some ((m.setRef p (m.ref p + 1)).setRef p ((m.setRef p (m.ref p + 1)).ref p - 1))
        else (m.setRef p (m.ref p + 1)).pageRemovePte f (v % 2 ^ 9)
      else some (m.setRef p (m.ref p + 1))) = some m') :
    ∃ role', Inserted dirs K d v p m (m'.setEntry f (v % 2 ^ 9) (pteCreate p (pteV ||| perm))) role role' := by
  have he := pteFrame_create h.toPaged hp hb
  have hpaged := h.paged
  have hvars : SameVars m m' ∧ (m'.frame = m.frame ∨ m'.frame = (m.setEntry f (v % 2 ^ 9) 0).frame) := by
    split at hm
    · obtain ⟨q, -, hm⟩ := Option.bind_eq_some_iff.1 hm
      split at hm
      · cases hm
        exact ⟨.trans (.setRef ..) (.setRef ..), .inl rfl⟩
      · have hr := pageRemovePte_frame hm
        exact ⟨.trans (.setRef ..) (.pageRemovePte hm), hr⟩
    · cases hm
      exact ⟨.setRef .., .inl rfl⟩
  have hframe : (m'.setEntry f (v % 2 ^ 9) (pteCreate p (pteV ||| perm))).frame =
      (m.setEntry f (v % 2 ^ 9) (pteCreate p (pteV ||| perm))).frame := by
    unfold Mem.setEntry Mem.setFrame
    rcases hvars.2 with hc | hc
    · rw [hc]
    · rw [hc, setEntry_frame_self, Function.update_idem]
      exact Function.update_idem ..
  have hleaf (_ : pteValid (pteCreate p (pteV ||| perm))) : role (ptePpn (pteCreate p (pteV ||| perm))) = .leaf := by
    rw [(pteFrame_eq_some.1 he).2, hp]
  have hpte (c w : Nat) (hc : c ∈ dirs) (hw : w < userVpn) :
      (m'.setEntry f (v % 2 ^ 9) (pteCreate p (pteV ||| perm))).pteAt c w =
        if c = d ∧ w = v then pteCreate p (pteV ||| perm) else m.pteAt c w := by
    rw [pteAt_frame hframe]
    exact hpaged.pteAt_setPte hf hv hleaf ((h.root c).2 hc) hw
  have hstill : (if pteValid (m.still.frame f (v % 2 ^ 9)) then do
        let q ← kva (ptePpn (m.still.frame f (v % 2 ^ 9)))
        if q = p then
          some ((m.still.setRef p (m.still.ref p + 1)).setRef p ((m.still.setRef p (m.still.ref p + 1)).ref p - 1))
        else (m.still.setRef p (m.still.ref p + 1)).pageRemovePte f (v % 2 ^ 9)
      else some (m.still.setRef p (m.still.ref p + 1))) = some m'.still := by
    have hs : m.still.setRef p (m.still.ref p + 1) = (m.setRef p (m.ref p + 1)).still := rfl
    have hfr : m.still.frame = m.frame := rfl
    rw [hs, hfr, pageRemovePte_still]
    split at hm
    · rename_i hval
      obtain ⟨q, hk, hm⟩ := Option.bind_eq_some_iff.1 hm
      rw [if_pos hval, hk]
      dsimp only [Option.bind_eq_bind, Option.bind_some]
      split at hm
      · rename_i hqp
        cases hm
        rw [if_pos hqp]
        rfl
      · rename_i hqp
        rw [if_neg hqp, hm]
        rfl
    · rename_i hval
      cases hm
      rw [if_neg hval]
  obtain ⟨role', hc, -⟩ := h.replace hf hv hp he hstill
  refine ⟨role', hc, hvars.1.trans (.setEntry ..), ?_, fun c hc w hw hne => ?_, fun g hg => ?_⟩
  · unfold Mem.mapped
    rw [hpte d v ((h.root d).1 (h.tables.root_role hf)) hv, if_pos ⟨rfl, rfl⟩, he]
  · rw [hpte c w hc hw, if_neg hne]
  · rw [hframe]
    refine setEntry_frame_of_ne _ _ _ ?_
    rintro rfl
    exact hg hf

/-- What `page_remove_pte` does to the slot. -/
theorem Counted.removeAt (h : Counted dirs K m.still role) (hf : role f = .node d (vpath v)) (hv : v < userVpn)
    (hr : m.pageRemovePte f (v % 2 ^ 9) = some m') : ∃ role', Counted dirs K m'.still role' ∧ SameVars m m' ∧
      m'.mapped (d, v) = none ∧ ∀ c ∈ dirs, ∀ w < userVpn, ¬ (c = d ∧ w = v) → m'.pteAt c w = m.pteAt c w := by
  have hpaged := h.paged
  have hstill : m.still.pageRemovePte f (v % 2 ^ 9) = some m'.still := by
    rw [pageRemovePte_still, hr]
    rfl
  obtain ⟨role', hrem⟩ := h.pageRemovePte hf hv hstill
  refine ⟨role', hrem.toCounted, .pageRemovePte hr, hrem.gone, fun c hc w hw hne => ?_⟩
  rcases pageRemovePte_frame hr with hfr | hfr
  · exact pteAt_frame hfr
  · rw [pteAt_frame hfr, hpaged.pteAt_setPte hf hv (fun hc => by cases hc) ((h.root c).2 hc) hw, if_neg hne]

theorem SwapInv.fresh {P : Mem A → (Nat → Role) → Prop} {C : Mem A → Prop} (hP : SwapInv dirs K C P) (t : Nat)
    (w : Words) : SwapInv dirs K C fun m role => P m role ∧ Fresh dirs t m role ∧ m.frame t = w := by
  apply hP.and
  · rintro m m' role d v p h ⟨hf, hw⟩ he
    have htp : t ≠ p := by
      rintro rfl
      exact hf.unmapped _ he.mem he.mapped
    refine ⟨⟨(Function.update_of_ne htp ..).trans hf.leaf, fun x hx hm => ?_⟩, ?_⟩
    · exact hf.unmapped x hx (he.mapped_of hx hm).2
    · rw [he.frame t (by rw [hf.leaf]; simp), hw]
  · rintro m role s t' e d p i h ⟨hf, hw⟩ ha he ht
    have htt : t ≠ t' := by
      rintro rfl
      exact absurd (hf.leaf.symm.trans ((hP.paged h).alloc_free ha)) (by simp)
    have hte : t ≠ e := by
      rintro rfl
      exact absurd (hf.leaf.symm.trans he) (by simp)
    refine ⟨⟨(Function.update_of_ne htt ..).trans hf.leaf, fun x hx hm => ?_⟩, ?_⟩
    · obtain ⟨hc, hv⟩ := mem_userSlots.1 hx
      rw [Mem.mapped, ht.pteAt (hP.paged h) (((hP.counted h).root _).2 hc) hv] at hm
      exact hf.unmapped x hx hm
    · rw [addTable_frame, Function.update_of_ne hte, Function.update_of_ne htt, hw]

end

/-- `P` is kept until a page is allocated and `Q` from then on, with the address space `mm` and its directory. -/
structure FaultInv {A : PhysSys} (dirs : Finset Nat) (K : Nat → Prop) (C : Mem A → Prop) (mm d : Nat)
    (P Q : Mem A → (Nat → Role) → Prop) : Prop where
  before : SwapInv dirs K C P
  after : SwapInv dirs K C Q
  dir : d ∈ dirs
  pgdir : Q m role → (m.mms mm).pgdir = some d
  alloc : P m role → A.allocPages m.phys 1 = (some t, s) → Q (m.setPhys s) (update role t .leaf)
  write : Q m role → Fresh dirs t m role → Q (m.setFrame t w) role

/-- A new page with the contents `w` has been mapped in a state with `Q`. -/
def MapsNew {A : PhysSys} (dirs : Finset Nat) (K : Nat → Prop) (Q : Mem A → (Nat → Role) → Prop) (d v t : Nat)
    (w : Words) (m' : Mem A) : Prop :=
  ∃ m role role', Q m role ∧ Fresh dirs t m role ∧ m.frame t = w ∧ Inserted dirs K d v t m m' role role'

/-- The page is put into the swap queue. -/
def Mem.enqueue {A : PhysSys} (m : Mem A) (t la : Nat) : Mem A :=
  { m with praList := m.praList ++ [t], praVaddr := update m.praVaddr t la }

/-- What `do_pgfault` returns: there is no area, or a new page has been mapped, either for an entry that was 0
or with what the entry stood for on the disk. -/
inductive Faulted {A : PhysSys} (dirs : Finset Nat) (K : Nat → Prop)
    (P Q : Mem A → (Nat → Role) → Prop) (d la : Nat) (m' : Mem A) : Int → Prop
  | invalid : P m' role → Faulted dirs K P Q d la m' (-eInval)
  | zero : P m role → m.pteAt d (vpn la) = 0 → MapsNew dirs K Q d (vpn la) t w m₂ →
      (m₂.checkMm ≠ none ∧ m' = m₂.enqueue t la ∨ m₂.checkMm = none ∧ m' = m₂) → Faulted dirs K P Q d la m' 0
  | read : Q m role → m.swapOffset (m.pteAt d (vpn la)) = some offset →
      MapsNew dirs K Q d (vpn la) t (m.disk offset) m₂ → m' = m₂.enqueue t la → Faulted dirs K P Q d la m' 0

section
variable {A : PhysSys} {m m' m₁ m₂ : Mem A} {role role' role₁ : Nat → Role} {dirs : Finset Nat} {K : Nat → Prop}
  {C : Mem A → Prop} {P Q : Mem A → (Nat → Role) → Prop}

/-- `page_insert` of a new page does not fail. -/
theorem SwapInv.pageInsert (hQ : SwapInv dirs K C Q) (h : Q m role) (ht : Fresh dirs t m role)
    (hd : role d = .node d []) (hv : vpn la < userVpn) (hb : PermBits perm)
    (hc : ∀ m₁, m.GetPteSwaps d la m₁ → C m₁) (hi : m.pageInsert d t la perm = some (ok, m')) :
    ok = true ∧ MapsNew dirs K Q d (vpn la) t (m.frame t) m' := by
  obtain ⟨⟨r, m₁⟩, hg, hi⟩ := Option.bind_eq_some_iff.1 hi
  obtain ⟨role₁, pt, ⟨h₁, ht₁, hw⟩, -, rfl, hpt⟩ := (hQ.fresh t (m.frame t)).getPte ⟨h, ht, rfl⟩ hd hv hc hg
  obtain ⟨m₂, hm, hi⟩ := Option.bind_eq_some_iff.1 hi
  cases hi
  obtain ⟨role₂, hins⟩ := (hQ.counted h₁).insertAt hpt hv ht₁.leaf hb hm
  exact ⟨rfl, m₁, role₁, role₂, h₁, ht₁, hw, hins⟩

theorem Fresh.write (h : Fresh dirs t m role) (hc : Counted dirs K m.still role) (w : Words) :
    Fresh dirs t (m.setFrame t w) role where
  leaf := h.leaf
  unmapped x hx hm := by
    obtain ⟨hd, hv⟩ := mem_userSlots.1 hx
    have hpte : (m.setFrame t w).pteAt x.1 x.2 = m.pteAt x.1 x.2 := hc.pteAt_write h.leaf w hd hv
    rw [Mem.mapped, hpte] at hm
    exact h.unmapped x hx hm

namespace FaultInv

/-- The page that `alloc_page` returns is not mapped. -/
theorem allocPage (hF : FaultInv dirs K C mm d P Q) (h : P m role) (hc : ∀ m₁, m.AllocSwaps m₁ → C m₁)
    (ha : m.allocPage = some (r, m')) :
    ∃ t role', r = some t ∧ Q m' role' ∧ Fresh dirs t m' role' ∧ NodesKept role role' := by
  obtain ⟨m₁, role₁, t, s, h₁, hk, -, rfl, hp, rfl⟩ := hF.before.alloc h hc ha
  have hpaged := hF.before.paged h₁
  have hfree := hpaged.alloc_free hp
  refine ⟨t, _, rfl, hF.alloc h₁ hp, ⟨Function.update_self .., fun x hx hm => ?_⟩,
    hk.trans (.update (.inl hfree) _)⟩
  obtain ⟨hd, hv⟩ := mem_userSlots.1 hx
  have hleaf := ((hF.before.counted h₁).mapped_leaf hd hv hm).1
  rw [hfree] at hleaf
  cases hleaf

/-- `pgdir_alloc_page` maps a new page, and puts it into the queue of the checked address space. -/
theorem pgdirAllocPage (hF : FaultInv dirs K C mm d P Q) (h : P m role) (hv : vpn la < userVpn)
    (hb : PermBits perm) (hc : ∀ m₁, m.PgdirAllocPageSwaps d la m₁ → C m₁)
    (hg : m.pgdirAllocPage d la perm = some (r, m')) :
    ∃ t w m₂, r = some t ∧ MapsNew dirs K Q d (vpn la) t w m₂ ∧
      (m₂.checkMm ≠ none ∧ m' = m₂.enqueue t la ∨ m₂.checkMm = none ∧ m' = m₂) := by
  obtain ⟨⟨r₁, m₁⟩, ha, hg⟩ := Option.bind_eq_some_iff.1 hg
  obtain ⟨t, role₁, rfl, h₁, ht, hk⟩ := hF.allocPage h (fun m₁ hs => hc m₁ (.inl hs)) ha
  obtain ⟨⟨ok, m₂⟩, hi, hg⟩ := Option.bind_eq_some_iff.1 hg
  have hd := hk d d [] (((hF.before.counted h).root d).2 hF.dir)
  obtain ⟨rfl, hnew⟩ := hF.after.pageInsert h₁ ht hd hv hb (fun m₂ hs => hc m₂ (.inr ⟨t, m₁, ha, hs⟩)) hi
  have hon : m₂.swapInitOk = true := by
    obtain ⟨m₃, role₃, role₄, h₃, -, -, hins⟩ := hnew
    exact hins.vars.swapInitOk.trans (hF.after.on h₃)
  dsimp only at hg
  rw [if_pos hon] at hg
  cases hcm : m₂.checkMm with
  | none =>
    rw [hcm] at hg
    cases hg
    exact ⟨t, _, _, rfl, hnew, .inr ⟨hcm, rfl⟩⟩
  | some mm' =>
    rw [hcm] at hg
    obtain ⟨m₃, hs, hg⟩ := Option.bind_eq_some_iff.1 hg
    unfold Mem.swapMapSwappable at hs
    split at hs
    · cases hs
      dsimp only at hg
      split at hg
      · cases hg
        exact ⟨t, _, m₂, rfl, hnew, .inl ⟨by simp [hcm], rfl⟩⟩
      · cases hg
    · cases hs

/-- `swap_in` reads what the entry stands for into a new page. -/
theorem swapIn (hF : FaultInv dirs K C mm d P Q) (h : P m role) (hv : vpn la < userVpn)
    (hc : ∀ m₁, m.AllocSwaps m₁ → C m₁) (hs : m.swapIn mm la = some (t, m')) :
    ∃ m₁ role₁ offset, Q m₁ role₁ ∧ Fresh dirs t m₁ role₁ ∧ NodesKept role role₁ ∧
      m₁.swapOffset (m₁.pteAt d (vpn la)) = some offset ∧ m' = m₁.setFrame t (m₁.disk offset) := by
  obtain ⟨⟨r₁, m₁⟩, ha, hs⟩ := Option.bind_eq_some_iff.1 hs
  obtain ⟨t', role₁, rfl, h₁, ht, hk⟩ := hF.allocPage h hc ha
  obtain ⟨d', hd, hs⟩ := Option.bind_eq_some_iff.1 hs
  obtain rfl := Option.some.inj (hd.symm.trans (hF.pgdir h₁))
  have hpaged := hF.after.paged h₁
  have hroot := ((hF.after.counted h₁).root d').2 hF.dir
  obtain ⟨slot, hslot, hs⟩ := Option.bind_eq_some_iff.1 hs
  obtain ⟨⟨pt, i⟩, rfl, hread⟩ := Option.bind_eq_some_iff.1 hs
  rw [hpaged.pteSlot_eq hroot hv] at hslot
  obtain ⟨f, hw, he⟩ := Option.map_eq_some_iff.1 (Option.some.inj hslot)
  cases he
  obtain ⟨m₂, hr, hread⟩ := Option.bind_eq_some_iff.1 hread
  cases hread
  obtain ⟨offset, ho, hr⟩ := Option.bind_eq_some_iff.1 hr
  cases hr
  refine ⟨m₁, role₁, offset, h₁, ht, hk, ?_, rfl⟩
  rw [hpaged.pteAt_node ((hpaged.walk_iff hroot hv).1 hw) hv]
  exact ho

theorem doPgfault (hF : FaultInv dirs K C mm d P Q) (h : P m role) (hpg : (m.mms mm).pgdir = some d)
    (hcache : ∀ c, P (m.setMm mm { m.mms mm with mmapCache := c }) role) (ha : addr < 2 ^ 38)
    (hc : ∀ m₁, m.DoPgfaultSwaps mm d addr m₁ → C m₁) (hf : m.doPgfault (some mm) addr = some (ret, m')) :
    Faulted dirs K P Q d (roundDown addr pgSize) m' ret := by
  have hla : vpn (roundDown addr pgSize) < userVpn := vpn_lt (by unfold roundDown; omega)
  unfold Mem.doPgfault at hf
  cases hv : m.findVma (some mm) addr with
  | mk r m₁ =>
    have hcases := findVma_cases hv
    have h₁ : P m₁ role := by
      rcases hcases with rfl | ⟨c, rfl⟩
      · exact h
      · exact hcache c
    have hpg₁ : (m₁.mms mm).pgdir = some d := by
      rcases hcases with rfl | ⟨c, rfl⟩
      · exact hpg
      · unfold Mem.setMm
        dsimp only
        rw [Function.update_self]
        exact hpg
    rw [hv] at hf
    cases r with
    | none =>
      cases hf
      exact .invalid h₁
    | some vma =>
      dsimp only at hf
      split at hf
      · cases hf
        exact .invalid h₁
      · rename_i hstart
        have hroot := ((hF.before.counted h₁).root d).2 hF.dir
        obtain ⟨mm', hmm, hf⟩ := Option.bind_eq_some_iff.1 hf
        obtain rfl := Option.some.inj hmm
        obtain ⟨d', hd, hf⟩ := Option.bind_eq_some_iff.1 hf
        obtain rfl := Option.some.inj (hd.symm.trans hpg₁)
        obtain ⟨⟨r₂, m₂⟩, hg, hf⟩ := Option.bind_eq_some_iff.1 hf
        obtain ⟨role₂, pt, h₂, hk₂, rfl, hpt⟩ := hF.before.getPte h₁ hroot hla
          (fun m₂ hs => hc m₂ ⟨vma, m₁, hv, hstart, .inl hs⟩) hg
        have hpte : m₂.pteAt d' (vpn (roundDown addr pgSize)) = m₂.frame pt (vpn (roundDown addr pgSize) % 2 ^ 9) :=
          (hF.before.paged h₂).pteAt_node hpt hla
        have hb : PermBits (if vma.vmFlags &&& vmWrite ≠ 0 then pteU ||| readWrite else pteU) := by
          split <;> decide
        dsimp only at hf
        split at hf
        · rename_i hz
          obtain ⟨⟨r₃, m₃⟩, hp, hf⟩ := Option.bind_eq_some_iff.1 hf
          obtain ⟨t, w, m₄, rfl, hnew, hq⟩ := hF.pgdirAllocPage h₂ hla hb
            (fun m₁ hs => hc m₁ ⟨vma, _, hv, hstart, .inr ⟨pt, _, m₂, hg, .inl ⟨hz, hs⟩⟩⟩) hp
          cases hf
          exact .zero h₂ (hpte.trans hz) hnew hq
        · rename_i hnz
          split at hf
          · obtain ⟨⟨t, m₃⟩, hs, hf⟩ := Option.bind_eq_some_iff.1 hf
            obtain ⟨m₄, role₄, offset, h₄, ht, hk₄, ho, rfl⟩ := hF.swapIn h₂ hla
              (fun m₁ h => hc m₁ ⟨vma, _, hv, hstart, .inr ⟨pt, _, m₂, hg, .inr ⟨hnz, .inl h⟩⟩⟩) hs
            obtain ⟨⟨ok, m₅⟩, hi, hf⟩ := Option.bind_eq_some_iff.1 hf
            have ht' := ht.write (hF.after.counted h₄) (m₄.disk offset)
            obtain ⟨rfl, hnew⟩ := hF.after.pageInsert (hF.write h₄ ht) ht' (hk₄ _ _ _ (hk₂ _ _ _ hroot)) hla hb
              (fun m₁ h => hc m₁ ⟨vma, _, hv, hstart, .inr ⟨pt, _, m₂, hg, .inr ⟨hnz, .inr ⟨t, _, hs, h⟩⟩⟩⟩) hi
            have hw : (m₄.setFrame t (m₄.disk offset)).frame t = m₄.disk offset := Function.update_self ..
            rw [hw] at hnew
            obtain ⟨m₆, hq, hf⟩ := Option.bind_eq_some_iff.1 hf
            unfold Mem.swapMapSwappable at hq
            split at hq
            · cases hq
              cases hf
              exact .read h₄ ho hnew rfl
            · cases hq
          · rename_i hoff
            exact absurd (hF.before.on h₂) hoff

/-- The states in which `pgdir_alloc_page` calls `swap_out`. -/
theorem pgdirAllocPage_swaps (hF : FaultInv dirs K C mm d P Q) (h : P m role) (hv : vpn la < userVpn)
    (hc : ∀ m₁, m.PgdirAllocPageSwaps d la m₁ → C m₁) (hs : m.PgdirAllocPageSwaps d la m₁) :
    ∃ role₁, P m₁ role₁ ∨ Q m₁ role₁ := by
  rcases hs with hs | ⟨t, m₂, ha, hs⟩
  · obtain ⟨role₁, h₁, -⟩ := hF.before.evicts h hs fun m₁ h₁ => hc m₁ (.inl h₁)
    exact ⟨role₁, .inl h₁⟩
  · obtain ⟨t', role₂, -, h₂, -, hk⟩ := hF.allocPage h (fun m₁ h₁ => hc m₁ (.inl h₁)) ha
    obtain ⟨role₁, h₁, -⟩ := hF.after.getPte_swaps h₂ (hk _ _ _ (((hF.before.counted h).root d).2 hF.dir)) hv
      (fun m₁ h₁ => hc m₁ (.inr ⟨t, m₂, ha, h₁⟩)) hs
    exact ⟨role₁, .inr h₁⟩

/-- The states in which `do_pgfault` calls `swap_out`. -/
theorem doPgfault_swaps (hF : FaultInv dirs K C mm d P Q) (h : P m role)
    (hcache : ∀ c, P (m.setMm mm { m.mms mm with mmapCache := c }) role) (ha : addr < 2 ^ 38)
    (hc : ∀ m₁, m.DoPgfaultSwaps mm d addr m₁ → C m₁) (hs : m.DoPgfaultSwaps mm d addr m₁) :
    ∃ role₁, P m₁ role₁ ∨ Q m₁ role₁ := by
  have hla : vpn (roundDown addr pgSize) < userVpn := vpn_lt (by unfold roundDown; omega)
  obtain ⟨vma, m', hv, hstart, hs⟩ := hs
  have h' : P m' role := by
    rcases findVma_cases hv with rfl | ⟨c, rfl⟩
    · exact h
    · exact hcache c
  have hroot := ((hF.before.counted h').root d).2 hF.dir
  rcases hs with hs | ⟨pt, i, m₂, hg, hs⟩
  · obtain ⟨role₁, h₁, -⟩ := hF.before.getPte_swaps h' hroot hla
      (fun m₁ h₁ => hc m₁ ⟨vma, m', hv, hstart, .inl h₁⟩) hs
    exact ⟨role₁, .inl h₁⟩
  · obtain ⟨role₂, pt', h₂, hk₂, -, -⟩ := hF.before.getPte h' hroot hla
      (fun m₁ h₁ => hc m₁ ⟨vma, m', hv, hstart, .inl h₁⟩) hg
    rcases hs with ⟨hz, hs⟩ | ⟨hnz, hs | ⟨t, m₃, hin, hs⟩⟩
    · exact hF.pgdirAllocPage_swaps h₂ hla
        (fun m₁ h₁ => hc m₁ ⟨vma, m', hv, hstart, .inr ⟨pt, i, m₂, hg, .inl ⟨hz, h₁⟩⟩⟩) hs
    · obtain ⟨role₁, h₁, -⟩ := hF.before.evicts h₂ hs
        fun m₁ h₁ => hc m₁ ⟨vma, m', hv, hstart, .inr ⟨pt, i, m₂, hg, .inr ⟨hnz, .inl h₁⟩⟩⟩
      exact ⟨role₁, .inl h₁⟩
    · obtain ⟨m₄, role₄, offset, h₄, ht, hk₄, -, rfl⟩ := hF.swapIn h₂ hla
        (fun m₁ h₁ => hc m₁ ⟨vma, m', hv, hstart, .inr ⟨pt, i, m₂, hg, .inr ⟨hnz, .inl h₁⟩⟩⟩) hin
      obtain ⟨role₁, h₁, -⟩ := hF.after.getPte_swaps (hF.write h₄ ht) (hk₄ _ _ _ (hk₂ _ _ _ hroot)) hla
        (fun m₁ h₁ => hc m₁ ⟨vma, m', hv, hstart, .inr ⟨pt, i, m₂, hg, .inr ⟨hnz, .inr ⟨t, _, hin, h₁⟩⟩⟩⟩) hs
      exact ⟨role₁, .inr h₁⟩

end FaultInv

/-- Where nothing is queued, nothing is swapped out. -/
theorem doPgfaultSwaps_nil (h : Counted dirs K m.still role) (hon : m.swapInitOk = true) (hq : m.praList = [])
    (hpg : (m.mms mm).pgdir = some d) (hd : d ∈ dirs) (ha : addr < 2 ^ 38) (hs : m.DoPgfaultSwaps mm d addr m₁) :
    m₁.praList = [] := by
  let P (m : Mem A) (role : Nat → Role) : Prop := Counted dirs K m.still role ∧ m.swapInitOk = true ∧
    m.praList = [] ∧ (m.mms mm).pgdir = some d
  have hP : SwapInv dirs K (fun _ : Mem A => True) P := by
    refine ⟨fun h => h.1, fun h => h.2.1, ?_, fun h ha he hl hi hv => ⟨h.1.addTable ha he hl hi hv, h.2⟩⟩
    intro m role m' h _ hs
    cases hc : m.checkMm with
    | none =>
      rw [hc] at hs
      cases hs
    | some mm' =>
      rw [hc] at hs
      obtain ⟨p, rest, -, -, -, -, hcons, -⟩ := swapOut_cases hs
      rw [h.2.2.1] at hcons
      cases hcons
  have hF : FaultInv dirs K (fun _ : Mem A => True) mm d P P :=
    ⟨hP, hP, hd, fun h => h.2.2.2, fun h ha => ⟨(h.1.alloc ha).1, h.2⟩, fun h ht => ⟨(h.1.write ht.leaf _).1, h.2⟩⟩
  have hcache (c : Option Vma) : P (m.setMm mm { m.mms mm with mmapCache := c }) role := by
    refine ⟨h.congr rfl rfl rfl rfl, hon, hq, ?_⟩
    unfold Mem.setMm
    dsimp only
    rw [Function.update_self]
    exact hpg
  obtain ⟨role₁, h₁⟩ := hF.doPgfault_swaps ⟨h, hon, hq, hpg⟩ hcache ha (fun _ _ => trivial) hs
  exact h₁.elim (fun h => h.2.2.1) fun h => h.2.2.1

end

end UCore
