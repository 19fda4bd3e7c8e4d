import UCore.Mm.Evict
import UCore.Mm.Vmm

namespace UCore
set_option autoImplicit true
open Function (update)

namespace Mem
variable {A : PhysSys}

/-- `swap_out` of `n` pages. -/
def swapOuts (m : Mem A) (mm : Nat) : Nat → Option (Mem A)
  | 0 => some m
  | n + 1 => (m.swapOuts mm n).bind fun m => m.swapOut (some mm)

/-- The states in which `alloc_page` calls `swap_out`. -/
inductive AllocSwaps : Mem A → Mem A → Prop
  | here : (A.allocPages m.phys 1).1 = none → m.swapInitOk = true → AllocSwaps m m
  | next : (A.allocPages m.phys 1).1 = none → m.swapInitOk = true → m.swapOut m.checkMm = some m₁ →
      AllocSwaps m₁ m₂ → AllocSwaps m m₂

/-- The states in which one level of `get_pte` with `create` calls it. -/
def TableSwaps (m : Mem A) (f i : Nat) (m₁ : Mem A) : Prop := pteValid (m.frame f i) = false ∧ m.AllocSwaps m₁

/-- The states in which `get_pte` with `create`, and so `page_insert`, calls it. -/
def GetPteSwaps (m : Mem A) (pgdir la : Nat) (m₁ : Mem A) : Prop :=
  m.TableSwaps pgdir (pdx1 la) m₁ ∨
    ∃ pd0 m', m.nextTable pgdir (pdx1 la) true = some (some pd0, m') ∧ m'.TableSwaps pd0 (pdx0 la) m₁

def PgdirAllocPageSwaps (m : Mem A) (pgdir la : Nat) (m₁ : Mem A) : Prop :=
  m.AllocSwaps m₁ ∨ ∃ page m', m.allocPage = some (some page, m') ∧ m'.GetPteSwaps pgdir la m₁

def SwapInSwaps (m : Mem A) (mm pgdir addr : Nat) (m₁ : Mem A) : Prop :=
  m.AllocSwaps m₁ ∨ ∃ page m', m.swapIn mm addr = some (page, m') ∧ m'.GetPteSwaps pgdir addr m₁

/-- The states in which `do_pgfault` calls it. -/
def DoPgfaultSwaps (m : Mem A) (mm pgdir addr : Nat) (m₁ : Mem A) : Prop :=
  ∃ vma m', m.findVma (some mm) addr = (some vma, m') ∧ ¬ vma.vmStart > addr ∧
    (m'.GetPteSwaps pgdir (roundDown addr pgSize) m₁ ∨
      ∃ pt i m₂, m'.getPte pgdir (roundDown addr pgSize) true = some (some (pt, i), m₂) ∧
        (m₂.frame pt i = 0 ∧ m₂.PgdirAllocPageSwaps pgdir (roundDown addr pgSize) m₁ ∨
          m₂.frame pt i ≠ 0 ∧ m₂.SwapInSwaps mm pgdir (roundDown addr pgSize) m₁))

end Mem

/-- The operations of an address space while swapping is on. -/
inductive SwapOp where
  | doPgfault (mm addr : Nat)
  | pgdirAllocPage (mm la : Nat) (perm : BitVec 32)
  | pageRemove (mm la : Nat)
  | unmapRange (mm start stop : Nat)
  | swapOut (mm n : Nat)

namespace SwapOp
variable {A : PhysSys}

def run (m : Mem A) : SwapOp → Option (Mem A)
  | doPgfault mm addr => (m.doPgfault (some mm) addr).map Prod.snd
  | pgdirAllocPage mm la perm => (m.mms mm).pgdir.bind fun d => (m.pgdirAllocPage d la perm).map Prod.snd
  | pageRemove mm la => (m.mms mm).pgdir.bind fun d => m.pageRemove d la
  | unmapRange mm start stop => (m.mms mm).pgdir.bind fun d => m.unmapRange d start stop
  | swapOut mm n => m.swapOuts mm n

/-- The operation calls `swap_out` for the `mm_struct` `mm` in the state `m₁`. -/
def Swaps (m : Mem A) (mm : Nat) (m₁ : Mem A) : SwapOp → Prop
  | doPgfault mm' addr => m.checkMm = some mm ∧ ∃ d, (m.mms mm').pgdir = some d ∧ m.DoPgfaultSwaps mm' d addr m₁
  | pgdirAllocPage mm' la _ => m.checkMm = some mm ∧ ∃ d, (m.mms mm').pgdir = some d ∧ m.PgdirAllocPageSwaps d la m₁
  | pageRemove _ _ => False
  | unmapRange _ _ _ => False
  | swapOut mm' n => mm' = mm ∧ ∃ k < n, m.swapOuts mm k = some m₁

end SwapOp

/-- Tables stay tables. -/
def NodesKept (role role' : Nat → Role) : Prop := ∀ f d p, role f = .node d p → role' f = .node d p

/-- A property of the memory and its tables that swapping out keeps, where it is done under the condition
`C`, as well as adding empty tables. -/
structure SwapInv {A : PhysSys} (dirs : Finset Nat) (K : Nat → Prop) (C : Mem A → Prop)
    (P : Mem A → (Nat → Role) → Prop) : Prop where
  counted : P m role → Counted dirs K m.still role
  on : P m role → m.swapInitOk = true
  evict : P m role → C m → m.swapOut m.checkMm = some m' →
    ∃ d v p, Evicted dirs K d v p m m' role ∧ P m' (update role p .free)
  table : P m role → A.allocPages m.phys 1 = (some t, s) → role e = .node d p → p.length < 2 →
    i < sv39.width p.length → pteValid (m.frame e i) = false →
    P (m.addTable s t e i) (update role t (.node d (p ++ [i])))

section
variable {A : PhysSys} {m m' m₁ m₂ : Mem A} {role role' role'' : Nat → Role} {dirs : Finset Nat}
  {K : Nat → Prop} {C : Mem A → Prop} {P : Mem A → (Nat → Role) → Prop}

theorem NodesKept.refl (role : Nat → Role) : NodesKept role role := fun _ _ _ h => h

theorem NodesKept.trans (h : NodesKept role role') (h' : NodesKept role' role'') : NodesKept role role'' :=
  fun f d p hf => h' f d p (h f d p hf)

theorem NodesKept.update (h : role t = .free ∨ role t = .leaf) (r : Role) : NodesKept role (update role t r) := by
  intro f d p hf
  refine (Function.update_of_ne ?_ ..).trans hf
  rintro rfl
  rcases h with h | h <;> rw [hf] at h <;> cases h

theorem Counted.addTable (h : Counted dirs K m.still role) (ha : A.allocPages m.phys 1 = (some t, s))
    (he : role e = .node d p) (hl : p.length < 2) (hi : i < sv39.width p.length)
    (hv : pteValid (m.frame e i) = false) :
    Counted dirs K (m.addTable s t e i).still (update role t (.node d (p ++ [i]))) :=
  (h.tabled (h.toPaged.addTable ha he hl hi hv) ((h.root d).1 (h.tables.root_role he))).1

namespace SwapInv

theorem paged (hP : SwapInv dirs K C P) (h : P m role) : Paged m role := (hP.counted h).paged

/-- A further property that is kept together with the first. -/
theorem and (hP : SwapInv dirs K C P) {R : Mem A → (Nat → Role) → Prop}
    (he : ∀ {m m' role d v p}, P m role → R m role → Evicted dirs K d v p m m' role → R m' (update role p .free))
    (ht : ∀ {m role s t e d p i}, P m role → R m role → A.allocPages m.phys 1 = (some t, s) → role e = .node d p →
      Tabled d m (m.addTable s t e i) role (update role t (.node d (p ++ [i]))) →
      R (m.addTable s t e i) (update role t (.node d (p ++ [i])))) :
    SwapInv dirs K C fun m role => P m role ∧ R m role where
  counted h := hP.counted h.1
  on h := hP.on h.1
  evict h hc hs := by
    obtain ⟨d, v, p, hev, h'⟩ := hP.evict h.1 hc hs
    exact ⟨d, v, p, hev, h', he h.1 h.2 hev⟩
  table h ha hrole hl hi hv :=
    ⟨hP.table h.1 ha hrole hl hi hv, ht h.1 h.2 ha hrole ((hP.paged h.1).addTable ha hrole hl hi hv)⟩

/-- What `alloc_page` has swapped out before it gets a page, or before it calls `swap_out` once more. -/
theorem evicts (hP : SwapInv dirs K C P) (h : P m role) (hs : m.AllocSwaps m₁)
    (hc : ∀ m₁, m.AllocSwaps m₁ → C m₁) : ∃ role', P m₁ role' ∧ NodesKept role role' := by
  induction hs generalizing role with
  | here => exact ⟨role, h, .refl _⟩
  | next hno hon hs _ ih =>
    obtain ⟨d, v, p, he, h'⟩ := hP.evict h (hc _ (.here hno hon)) hs
    obtain ⟨role', h', hk⟩ := ih h' fun m₂ h₂ => hc m₂ (.next hno hon hs h₂)
    exact ⟨role', h', (NodesKept.update (.inr he.leaf) _).trans hk⟩

/-- `alloc_page` returns a page of the allocator, after swapping out some others. The upper tables stay as
they are. -/
theorem alloc (hP : SwapInv dirs K C P) (h : P m role) (hc : ∀ m₁, m.AllocSwaps m₁ → C m₁)
    (ha : m.allocPagesLoop 1 fuel = some (r, m')) : ∃ m₁ role₁ t s, P m₁ role₁ ∧ NodesKept role role₁ ∧
      (∀ f d p, role f = .node d p → p.length < 2 → m₁.frame f = m.frame f) ∧ r = some t ∧
      A.allocPages m₁.phys 1 = (some t, s) ∧ m' = m₁.setPhys s := by
  induction fuel generalizing m role with
  | zero => cases ha
  | succ fuel ih =>
    rw [Mem.allocPagesLoop] at ha
    cases hr : A.allocPages m.phys 1 with
    | mk r₁ s =>
      rw [hr] at ha
      cases r₁ with
      | some t =>
        cases ha
        exact ⟨m, role, t, s, h, .refl _, fun _ _ _ _ _ => rfl, rfl, hr, rfl⟩
      | none =>
        have hon := hP.on h
        obtain rfl := A.allocPages_none hr
        have hno : (A.allocPages m.phys 1).1 = none := by rw [hr]
        dsimp only at ha
        rw [if_neg (by simp [hon])] at ha
        obtain ⟨m₂, hs, ha⟩ := Option.bind_eq_some_iff.1 ha
        have hs' : m.swapOut m.checkMm = some m₂ := hs
        obtain ⟨d, v, p, he, h'⟩ := hP.evict h (hc _ (.here hno hon)) hs'
        obtain ⟨m₁, role₁, t, s, h₁, hk, hup, hres⟩ := ih h'
          (fun m₁ h₁ => hc m₁ (.next hno hon hs' h₁)) ha
        have hk' : NodesKept role (update role p .free) := .update (.inr he.leaf) _
        refine ⟨m₁, role₁, t, s, h₁, hk'.trans hk, fun f c q hf hl => ?_, hres⟩
        rw [hup f c q (hk' f c q hf) hl]
        refine he.frame f fun hn => ?_
        rw [(Role.node.inj (hf.symm.trans hn)).2] at hl
        exact absurd hl (Nat.lt_irrefl 2)

theorem nextTable (hP : SwapInv dirs K C P) (h : P m role) (he : role e = .node d p) (hl : p.length < 2)
    (hi : i < sv39.width p.length) (hc : ∀ m₁, m.TableSwaps e i m₁ → C m₁)
    (hn : m.nextTable e i true = some (r, m')) : ∃ role' t, P m' role' ∧ NodesKept role role' ∧ r = some t ∧
      role' t = .node d (p ++ [i]) := by
  unfold Mem.nextTable at hn
  split at hn
  · rename_i hv
    have hpaged := hP.paged h
    have hr : role (ptePpn (m.frame e i)) = .node d (p ++ [i]) := hpaged.tables.child e d p i he hl hi hv
    rw [hpaged.kva (by rw [hr]; simp)] at hn
    cases hn
    exact ⟨role, _, h, .refl _, rfl, hr⟩
  · rename_i hv
    have hv' := Bool.eq_false_iff.2 hv
    rw [if_pos rfl] at hn
    obtain ⟨⟨r₁, m₁⟩, hpage, hn⟩ := Option.bind_eq_some_iff.1 hn
    obtain ⟨m₁, role₁, t, s, h₁, hk, hup, rfl, ha, rfl⟩ := hP.alloc h (fun m₁ h₁ => hc m₁ ⟨hv', h₁⟩) hpage
    have he₁ := hk e d p he
    have hpaged₁ := hP.paged h₁
    have hv₁ : pteValid (m₁.frame e i) = false := by
      rw [hup e d p he hl]
      exact hv'
    have hgrow := hpaged₁.addTable ha he₁ hl hi hv₁
    have hr : update role₁ t (.node d (p ++ [i])) t = .node d (p ++ [i]) := Function.update_self ..
    obtain ⟨k, hkva, hn⟩ := Option.bind_eq_some_iff.1 hn
    have hkt : UCore.kva t = some t := hgrow.paged.kva (by rw [hr]; simp)
    obtain rfl := Option.some.inj (hkva.symm.trans hkt)
    have hentry : (m₁.addTable s k e i).frame e i = pteCreate k (pteU ||| pteV) := by
      rw [addTable_frame, Function.update_self, Function.update_self]
    have hw : ptePpn (pteCreate k (pteU ||| pteV)) = k := hgrow.paged.ppn_create (by rw [hr]; simp) (by decide)
    change (UCore.kva (ptePpn ((m₁.addTable s k e i).frame e i))).map
      (fun t => (some t, m₁.addTable s k e i)) = some (r, m') at hn
    rw [hentry, hw, hkva] at hn
    cases hn
    refine ⟨_, k, hP.table h₁ ha he₁ hl hi hv₁, ?_, rfl, hr⟩
    exact hk.trans (.update (.inl (hpaged₁.alloc_free ha)) _)

/-- `get_pte` with `create` finds or makes the slot of the address. -/
theorem getPte (hP : SwapInv dirs K C P) (h : P m role) (hd : role d = .node d []) (hv : vpn la < userVpn)
    (hc : ∀ m₁, m.GetPteSwaps d la m₁ → C m₁) (hg : m.getPte d la true = some (r, m')) :
    ∃ role' pt, P m' role' ∧ NodesKept role role' ∧ r = some (pt, vpn la % 2 ^ 9) ∧
      role' pt = .node d (vpath (vpn la)) := by
  obtain ⟨⟨r₁, m₁⟩, h₁, hg⟩ := Option.bind_eq_some_iff.1 hg
  have hi : pdx1 la < sv39.width ([] : List Nat).length := by
    rw [pdx1_eq]
    exact (vpath_inWidth hv).1
  have hj : pdx0 la < sv39.width [pdx1 la].length := by
    rw [pdx0_eq]
    exact (vpath_inWidth hv).2.1
  obtain ⟨role₁, pd0, hP₁, hk₁, rfl, hpd0⟩ := hP.nextTable h hd (show 0 < 2 by decide) hi
    (fun m₁ hs => hc m₁ (.inl hs)) h₁
  obtain ⟨⟨r₂, m₂⟩, h₂, hg⟩ := Option.bind_eq_some_iff.1 hg
  obtain ⟨role₂, pt, hP₂, hk₂, rfl, hpt⟩ := hP.nextTable hP₁ hpd0 (show 1 < 2 by decide) hj
    (fun m₂ hs => hc m₂ (.inr ⟨pd0, m₁, h₁, hs⟩)) h₂
  cases hg
  refine ⟨role₂, pt, hP₂, hk₁.trans hk₂, ?_, ?_⟩
  · rw [ptx_eq]
  · rw [hpt, pdx1_eq, pdx0_eq]
    rfl

/-- The states in which `get_pte` calls `swap_out`. -/
theorem getPte_swaps (hP : SwapInv dirs K C P) (h : P m role) (hd : role d = .node d []) (hv : vpn la < userVpn)
    (hc : ∀ m₁, m.GetPteSwaps d la m₁ → C m₁) (hs : m.GetPteSwaps d la m₁) :
    ∃ role', P m₁ role' ∧ NodesKept role role' := by
  rcases hs with hs | ⟨pd0, m', h₁, hs⟩
  · exact hP.evicts h hs.2 fun m₁ h₁ => hc m₁ (.inl ⟨hs.1, h₁⟩)
  · have hi : pdx1 la < sv39.width ([] : List Nat).length := by
      rw [pdx1_eq]
      exact (vpath_inWidth hv).1
    obtain ⟨role₁, t, hP₁, hk₁, -, -⟩ := hP.nextTable h hd (show 0 < 2 by decide) hi
      (fun m₁ hs => hc m₁ (.inl hs)) h₁
    obtain ⟨role₂, h₂, hk₂⟩ := hP.evicts hP₁ hs.2 fun m₁ h₂ => hc m₁ (.inr ⟨pd0, m', h₁, hs.1, h₂⟩)
    exact ⟨role₂, h₂, hk₁.trans hk₂⟩

end SwapInv

end

end UCore
