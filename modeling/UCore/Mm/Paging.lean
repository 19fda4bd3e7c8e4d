import UCore.Lib.Tables
import UCore.Mm.Pmm

namespace UCore
set_option autoImplicit true
open Function (update)

/-- The page tables of the lower half of the address space. -/
def sv39 : TableFmt (BitVec 64) where
  valid := pteValid
  target := ptePpn
  depth := 2
  width n := if n = 0 then 256 else 512

/-- The path to the last table for a page number. -/
def vpath (v : Nat) : List Nat := [v / 2 ^ 18, v / 2 ^ 9 % 2 ^ 9]

theorem vpath_inWidth (hv : v < userVpn) : sv39.InWidth 0 (vpath v) := by
  unfold userVpn at hv
  refine ⟨?_, ?_, trivial⟩
  · show v / 2 ^ 18 < 256
    omega
  · exact Nat.mod_lt _ (by decide)

theorem vpath_inj (h : vpath v = vpath w) (hm : v % 2 ^ 9 = w % 2 ^ 9) : v = w := by
  simp only [vpath, List.cons.injEq, and_true] at h
  omega

/-- The frames hold page tables with the roles, the roles fit the allocator, and free frames are not
referenced. -/
structure Paged {A : PhysSys} (m : Mem A) (role : Nat → Role) : Prop where
  tables : Tables sv39 m.frame role
  free : ∀ f, role f = .free ↔ A.free m.phys f
  pool : ∀ f, role f ≠ .other → 0x80200 ≤ f ∧ f < npage ∧ ¬ A.arena m.phys f
  unused : ∀ f, role f = .free → m.ref f = 0

/-- Where nothing is swapped: swapping is off, or there is no address space to swap from. -/
def Mem.Plain {A : PhysSys} (m : Mem A) : Prop := m.swapInitOk = false ∨ m.checkMm = none

/-- The entry of the last level for a page number, 0 where there is no table. -/
def Mem.pteAt {A : PhysSys} (m : Mem A) (d v : Nat) : BitVec 64 :=
  match sv39.walk m.frame d (vpath v) with
  | some f => m.frame f (v % 2 ^ 9)
  | none => 0

/-- The two memories have the same variables apart from frames, reference counts and allocator. -/
structure SameVars {A : PhysSys} (m m' : Mem A) : Prop where
  mms : m'.mms = m.mms
  praVaddr : m'.praVaddr = m.praVaddr
  swapInitOk : m'.swapInitOk = m.swapInitOk
  maxSwapOffset : m'.maxSwapOffset = m.maxSwapOffset
  checkMm : m'.checkMm = m.checkMm
  praList : m'.praList = m.praList
  disk : m'.disk = m.disk
  arena : A.arena m'.phys = A.arena m.phys
  live : A.live m'.phys = A.live m.phys
  spaces : m'.spaces = m.spaces

section
variable {A : PhysSys} {m m' m'' : Mem A} {role role' role'' : Nat → Role}

theorem SameVars.refl (m : Mem A) : SameVars m m := ⟨rfl, rfl, rfl, rfl, rfl, rfl, rfl, rfl, rfl, rfl⟩

theorem SameVars.trans (h : SameVars m m') (h' : SameVars m' m'') : SameVars m m'' where
  mms := h'.mms.trans h.mms
  praVaddr := h'.praVaddr.trans h.praVaddr
  swapInitOk := h'.swapInitOk.trans h.swapInitOk
  maxSwapOffset := h'.maxSwapOffset.trans h.maxSwapOffset
  checkMm := h'.checkMm.trans h.checkMm
  praList := h'.praList.trans h.praList
  disk := h'.disk.trans h.disk
  arena := h'.arena.trans h.arena
  live := h'.live.trans h.live
  spaces := h'.spaces.trans h.spaces

theorem SameVars.plain (h : SameVars m m') (hp : m.Plain) : m'.Plain := by
  unfold Mem.Plain
  rw [h.swapInitOk, h.checkMm]
  exact hp

theorem SameVars.setFrame (m : Mem A) (f : Nat) (w : Words) : SameVars m (m.setFrame f w) :=
  ⟨rfl, rfl, rfl, rfl, rfl, rfl, rfl, rfl, rfl, rfl⟩

theorem SameVars.setRef (m : Mem A) (p : Nat) (v : Int) : SameVars m (m.setRef p v) :=
  ⟨rfl, rfl, rfl, rfl, rfl, rfl, rfl, rfl, rfl, rfl⟩

theorem SameVars.setEntry (m : Mem A) (f i : Nat) (e : BitVec 64) : SameVars m (m.setEntry f i e) :=
  ⟨rfl, rfl, rfl, rfl, rfl, rfl, rfl, rfl, rfl, rfl⟩

theorem SameVars.freePage (m : Mem A) (p : Nat) : SameVars m (m.freePage p) :=
  ⟨rfl, rfl, rfl, rfl, rfl, rfl, rfl, A.freePages_arena, A.freePages_live, rfl⟩

theorem SameVars.alloc (h : A.allocPages m.phys n = (r, s)) : SameVars m (m.setPhys s) :=
  ⟨rfl, rfl, rfl, rfl, rfl, rfl, rfl, A.allocPages_arena h, A.allocPages_live h, rfl⟩

theorem SameVars.fail (m : Mem A) : SameVars m m.fail := ⟨rfl, rfl, rfl, rfl, rfl, rfl, rfl, rfl, rfl, rfl⟩

/-- Where nothing is swapped, `alloc_pages` returns what the allocator does. -/
theorem allocPages_plain (hp : m.Plain) (h : m.allocPages n = some (r, m')) :
    (r = none ∧ m' = m.fail) ∨
      ∃ p s, r = some p ∧ A.allocPages m.phys n = (some p, s) ∧ m' = m.setPhys s := by
  unfold Mem.allocPages Mem.allocPagesLoop at h
  cases ha : A.allocPages m.phys n with
  | mk r₁ s =>
    rw [ha] at h
    cases r₁ with
    | some p =>
      cases h
      exact .inr ⟨p, s, rfl, rfl, rfl⟩
    | none =>
      obtain rfl := A.allocPages_none ha
      dsimp only at h
      split at h
      · cases h
        exact .inl ⟨rfl, rfl⟩
      · rename_i hn
        rw [hp.resolve_left fun hoff => hn (.inr hoff)] at h
        cases h

/-- Nothing is mapped in an empty half. -/
theorem pteAt_empty (h : ∀ i < 256, pteValid (m.frame d i) = false) (hv : v < userVpn) : m.pteAt d v = 0 := by
  have hi := (vpath_inWidth hv).1
  unfold Mem.pteAt vpath TableFmt.walk
  rw [if_neg]
  rw [show sv39.valid (m.frame d (v / 2 ^ 18)) = false from h _ hi]
  simp

theorem kva_eq (h : f < npage) : kva f = some f := if_pos h

namespace Paged

theorem kva (h : Paged m role) (hf : role f ≠ .other) : UCore.kva f = some f :=
  kva_eq (h.pool f hf).2.1

theorem ppn_create (h : Paged m role) (hf : role f ≠ .other) (hp : PermBits perm) :
    ptePpn (pteCreate f perm) = f := by
  apply ptePpn_create _ hp
  have hlt := (h.pool f hf).2.1
  unfold npage at hlt
  omega

/-- The walk for a page number ends in the table with the role for it. -/
theorem walk_iff (h : Paged m role) (hd : role d = .node d []) (hv : v < userVpn) :
    sv39.walk m.frame d (vpath v) = some f ↔ role f = .node d (vpath v) :=
  h.tables.walk_iff hd (vpath_inWidth hv) (Nat.le_refl 2)

theorem pteAt_node (h : Paged m role) (hf : role f = .node d (vpath v)) (hv : v < userVpn) :
    m.pteAt d v = m.frame f (v % 2 ^ 9) := by
  unfold Mem.pteAt
  rw [(h.walk_iff (h.tables.root_role hf) hv).2 hf]

theorem pteAt_none (h : Paged m role) (hd : role d = .node d []) (hv : v < userVpn)
    (hn : ∀ f, role f ≠ .node d (vpath v)) : m.pteAt d v = 0 := by
  unfold Mem.pteAt
  cases hw : sv39.walk m.frame d (vpath v) with
  | none => rfl
  | some f => exact absurd ((h.walk_iff hd hv).1 hw) (hn f)

/-- What is mapped is a leaf. -/
theorem mapped (h : Paged m role) (hd : role d = .node d []) (hv : v < userVpn)
    (hp : pteValid (m.pteAt d v)) : role (ptePpn (m.pteAt d v)) = .leaf := by
  by_cases hf : ∃ f, role f = .node d (vpath v)
  · obtain ⟨f, hf⟩ := hf
    rw [h.pteAt_node hf hv] at hp ⊢
    exact h.tables.leaf f d _ _ hf rfl (Nat.mod_lt _ (by decide)) hp
  · rw [h.pteAt_none hd hv fun f hr => hf ⟨f, hr⟩] at hp
    cases hp

theorem pteSlot_eq (h : Paged m role) (hd : role d = .node d []) (hv : vpn la < userVpn) :
    m.pteSlot d la =
      some ((sv39.walk m.frame d (vpath (vpn la))).map fun f => (f, vpn la % 2 ^ 9)) := by
  have hi : vpn la / 2 ^ 18 < sv39.width ([] : List Nat).length := (vpath_inWidth hv).1
  have hj : vpn la / 2 ^ 9 % 2 ^ 9 < sv39.width [vpn la / 2 ^ 18].length := (vpath_inWidth hv).2.1
  unfold Mem.pteSlot vpath
  simp only [TableFmt.walk, pdx1_eq, pdx0_eq, ptx_eq]
  by_cases h1 : pteValid (m.frame d (vpn la / 2 ^ 18))
  · have hr1 : role (ptePpn (m.frame d (vpn la / 2 ^ 18))) = .node d [vpn la / 2 ^ 18] :=
      h.tables.child d d [] _ hd (by decide) hi h1
    rw [if_pos h1, if_pos (show sv39.valid _ = true from h1), h.kva (by rw [hr1]; simp)]
    show (if pteValid (m.frame (ptePpn _) _) then _ else _) = _
    by_cases h0 : pteValid (m.frame (ptePpn (m.frame d (vpn la / 2 ^ 18))) (vpn la / 2 ^ 9 % 2 ^ 9))
    · have hr0 : role (ptePpn (m.frame (ptePpn (m.frame d (vpn la / 2 ^ 18))) (vpn la / 2 ^ 9 % 2 ^ 9))) =
          .node d (vpath (vpn la)) :=
        h.tables.child _ d _ _ hr1 (show 1 < 2 by decide) hj h0
      rw [if_pos h0, if_pos (show sv39.valid (m.frame (sv39.target _) _) = true from h0),
        h.kva (by rw [hr0]; simp)]
      rfl
    · rw [if_neg h0, if_neg (show ¬ sv39.valid (m.frame (sv39.target _) _) = true from h0)]
      rfl
  · rw [if_neg h1, if_neg (show ¬ sv39.valid _ = true from h1)]
    rfl

end Paged

end

end UCore
