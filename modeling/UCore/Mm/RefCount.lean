import UCore.Lib.Tally
import UCore.Mm.PageInsert
import Mathlib.Data.Finset.Prod
import Mathlib.Data.Finset.Range

namespace UCore
set_option autoImplicit true
open Function (update)

/-- The frame that an entry leads to. -/
def pteFrame (e : BitVec 64) : Option Nat := if pteValid e then some (ptePpn e) else none

/-- The entries of the last level in the user halves of the directories, by directory and page number. -/
def userSlots (dirs : Finset Nat) : Finset (Nat × Nat) := dirs ×ˢ Finset.range userVpn

namespace Mem
variable {A : PhysSys}

/-- What a page number of a directory is mapped to. -/
def mapped (m : Mem A) (x : Nat × Nat) : Option Nat := pteFrame (m.pteAt x.1 x.2)

/-- The number of valid entries, over all the directories, that map a page. -/
def mapCount (m : Mem A) (dirs : Finset Nat) (p : Nat) : Nat := tally (userSlots dirs) m.mapped p

/-- A page that is allocated, but neither for a page table nor as one of the frames `K` that others use. -/
def Page (m : Mem A) (dirs : Finset Nat) (K : Nat → Prop) (p : Nat) : Prop :=
  ¬ A.free m.phys p ∧ ¬ K p ∧ ∀ d ∈ dirs, ∀ path, sv39.InWidth 0 path → path.length ≤ sv39.depth →
    sv39.walk m.frame d path ≠ some p

/-- Of the frames in use, exactly those are freed whose last mapping goes. -/
def Frees (dirs : Finset Nat) (m m' : Mem A) : Prop :=
  ∀ p, ¬ A.free m.phys p → (A.free m'.phys p ↔ 0 < m.mapCount dirs p ∧ m'.mapCount dirs p = 0)

end Mem

/-- The directories are the roots of the page tables, and every leaf has as many references as there are
entries that map it. -/
structure Counted {A : PhysSys} (dirs : Finset Nat) (K : Nat → Prop) (m : Mem A) (role : Nat → Role) : Prop
    extends Paged m role where
  off : m.swapInitOk = false
  root : ∀ d, role d = .node d [] ↔ d ∈ dirs
  kernel : ∀ f, role f = .other ↔ K f
  exact : ∀ p, role p = .leaf → m.ref p = m.mapCount dirs p

/-- The mappings are as before, and no frame has been freed. -/
structure Quiet {A : PhysSys} (dirs : Finset Nat) (m m' : Mem A) : Prop where
  count : ∀ p, m'.mapCount dirs p = m.mapCount dirs p
  free : ∀ p, A.free m'.phys p → A.free m.phys p

section
variable {A : PhysSys} {m m' m'' : Mem A} {role role' role'' : Nat → Role} {dirs : Finset Nat}
  {K : Nat → Prop}

theorem mem_userSlots : (d, v) ∈ userSlots dirs ↔ d ∈ dirs ∧ v < userVpn := by
  unfold userSlots
  rw [Finset.mem_product, Finset.mem_range]

theorem mapCount_congr (h : ∀ d ∈ dirs, ∀ v < userVpn, m'.pteAt d v = m.pteAt d v) (p : Nat) :
    m'.mapCount dirs p = m.mapCount dirs p := by
  apply tally_congr
  intro x hx
  obtain ⟨hd, hv⟩ := mem_userSlots.1 hx
  unfold Mem.mapped
  rw [h x.1 hd x.2 hv]

theorem pteFrame_eq_some : pteFrame e = some p ↔ pteValid e ∧ ptePpn e = p := by
  unfold pteFrame
  split
  · rename_i h
    simp [h]
  · rename_i h
    simp [h]

theorem Quiet.refl (dirs : Finset Nat) (m : Mem A) : Quiet dirs m m := ⟨fun _ => rfl, fun _ h => h⟩

theorem Quiet.trans (h : Quiet dirs m m') (h' : Quiet dirs m' m'') : Quiet dirs m m'' :=
  ⟨fun p => (h'.count p).trans (h.count p), fun p hp => h.free p (h'.free p hp)⟩

theorem Quiet.frees (h : Quiet dirs m m') (h' : Mem.Frees dirs m' m'') : Mem.Frees dirs m m'' := by
  intro p hp
  rw [h' p fun hf => hp (h.free p hf), h.count]

theorem Quiet.frees_self (h : Quiet dirs m m') : Mem.Frees dirs m m' := by
  intro p hp
  rw [h.count]
  constructor
  · exact fun hf => absurd (h.free p hf) hp
  · omega

/-- The tables that are added are empty. -/
theorem Tabled.pteAt (ht : Tabled d m m' role role') (h : Paged m role) (hc : role c = .node c [])
    (hv : v < userVpn) : m'.pteAt c v = m.pteAt c v := by
  by_cases hcd : c = d
  · rw [hcd]
    exact ht.same v hv
  · exact ht.adds.other h hc hcd hv

namespace Counted

theorem plain (h : Counted dirs K m role) : m.Plain := .inl h.off

theorem page_iff (h : Counted dirs K m role) : m.Page dirs K p ↔ role p = .leaf := by
  unfold Mem.Page
  rw [← h.free, ← h.kernel]
  constructor
  · rintro ⟨hfree, hother, hwalk⟩
    cases hr : role p with
    | free => exact absurd hr hfree
    | other => exact absurd hr hother
    | leaf => rfl
    | node d path =>
      have hd := h.tables.root_role hr
      have hw := h.tables.inWidth hr
      have hl := h.tables.length_le hr
      exact absurd ((h.tables.walk_iff hd hw hl).2 hr) (hwalk d ((h.root d).1 hd) path hw hl)
  · intro hr
    rw [hr]
    refine ⟨by simp, by simp, fun d hd path hw hl hc => ?_⟩
    have hnode := (h.tables.walk_iff ((h.root d).2 hd) hw hl).1 hc
    rw [hr] at hnode
    cases hnode

/-- Only leaves are mapped. -/
theorem count_eq_zero (h : Counted dirs K m role) (hp : role p ≠ .leaf) : m.mapCount dirs p = 0 := by
  apply tally_eq_zero.2
  intro x hx hm
  obtain ⟨hd, hv⟩ := mem_userSlots.1 hx
  obtain ⟨hval, hppn⟩ := pteFrame_eq_some.1 hm
  have hleaf := h.mapped ((h.root _).2 hd) hv hval
  rw [hppn] at hleaf
  exact hp hleaf

/-- Adding empty tables keeps the counts. -/
theorem tabled (h : Counted dirs K m role) (ht : Tabled d m m' role role') (hd : d ∈ dirs) :
    Counted dirs K m' role' ∧ Quiet dirs m m' := by
  have hroot := (h.root d).2 hd
  have hcount (p : Nat) : m'.mapCount dirs p = m.mapCount dirs p :=
    mapCount_congr (fun c hc v hv => ht.pteAt h.toPaged ((h.root c).2 hc) hv) p
  have hfresh (f : Nat) (hf : role f = .free) : role' f = .free ∨ ∃ p, role' f = .node d p := by
    rcases ht.fresh f hf with hr | hr | hr
    · exact .inl hr
    · rw [ht.leaf, hf] at hr
      cases hr
    · exact .inr hr
  constructor
  · constructor
    · exact ht.paged
    · rw [ht.vars.swapInitOk, h.off]
    · intro c
      rw [← h.root]
      by_cases hc : role c = .free
      · rw [hc]
        rcases hfresh c hc with hr | ⟨p, hr⟩
        · rw [hr]
        · refine iff_of_false (fun hn => ?_) (by simp)
          obtain ⟨rfl, -⟩ := Role.node.inj (hn.symm.trans hr)
          rw [hroot] at hc
          cases hc
      · rw [ht.keeps c hc]
    · intro f
      rw [← h.kernel]
      by_cases hf : role f = .free
      · rw [hf]
        rcases hfresh f hf with hr | ⟨p, hr⟩
        · rw [hr]
        · rw [hr]
          simp
      · rw [ht.keeps f hf]
    · intro p hp
      rw [ht.leaf] at hp
      rw [hcount, ht.ref p (by rw [hp]; simp), h.exact p hp]
  · refine ⟨hcount, fun p hp => ?_⟩
    rw [← ht.paged.free] at hp
    rw [← h.free]
    by_contra hn
    rw [ht.keeps p hn] at hp
    exact hn hp

/-- A frame changes its role between free and leaf. -/
theorem retag (h : Counted dirs K m role) (hp : Paged m' (update role t r)) (hoff : m'.swapInitOk = m.swapInitOk)
    (ht : role t = .free ∨ role t = .leaf) (hr : r = .free ∨ r = .leaf)
    (hcount : ∀ p, m'.mapCount dirs p = m.mapCount dirs p) (href : ∀ p ≠ t, m'.ref p = m.ref p)
    (hrt : r = .leaf → m'.ref t = m.mapCount dirs t) : Counted dirs K m' (update role t r) where
  toPaged := hp
  off := hoff.trans h.off
  root d := by
    rw [← h.root]
    by_cases hd : d = t
    · subst hd
      rw [Function.update_self]
      rcases ht with ht | ht <;> rcases hr with rfl | rfl <;> simp [ht]
    · rw [Function.update_of_ne hd]
  kernel f := by
    rw [← h.kernel]
    by_cases hf : f = t
    · subst hf
      rw [Function.update_self]
      rcases ht with ht | ht <;> rcases hr with rfl | rfl <;> simp [ht]
    · rw [Function.update_of_ne hf]
  exact p hleaf := by
    rw [hcount]
    by_cases hpt : p = t
    · subst hpt
      rw [Function.update_self] at hleaf
      exact hrt hleaf
    · rw [Function.update_of_ne hpt] at hleaf
      rw [href p hpt, h.exact p hleaf]

end Counted

end

end UCore
