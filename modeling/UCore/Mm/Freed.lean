import UCore.Mm.PageInsert
import UCore.Mm.RangeLoop

namespace UCore
set_option autoImplicit true
open Function (update)

/-- The entry `i` of the frame `g` is one of the tree of the root `d`, in the user half, and in use. -/
def Mem.Linked {A : PhysSys} (m : Mem A) (role : Nat → Role) (d g i : Nat) : Prop :=
  (∃ p, role g = .node d p ∧ i < sv39.width p.length) ∧ pteValid (m.frame g i)

/-- No page is mapped twice by the root `d`. -/
def Mem.Unshared {A : PhysSys} (m : Mem A) (d : Nat) : Prop :=
  ∀ v < userVpn, ∀ w < userVpn, pteValid (m.pteAt d v) → pteValid (m.pteAt d w) →
    ptePpn (m.pteAt d v) = ptePpn (m.pteAt d w) → v = w

/-- Since `m` the frames `l` of the tree of the root `d` have been given back one by one, and the entries that
led to them have been cleared. -/
structure Freed {A : PhysSys} (d : Nat) (l : List Nat) (m m' : Mem A) (role : Nat → Role) : Prop where
  phys : m'.phys = l.foldl (fun s f => A.freePages s f 1) m.phys
  nodup : l.Nodup
  linked : ∀ f ∈ l, ∃ g i, m.Linked role d g i ∧ ptePpn (m.frame g i) = f
  cut : ∀ g i, m.Linked role d g i → ptePpn (m.frame g i) ∈ l → m'.frame g i = 0
  kept : ∀ g i, ¬ (m.Linked role d g i ∧ ptePpn (m.frame g i) ∈ l) → m'.frame g i = m.frame g i
  ref : ∀ f, f ∉ l → m'.ref f = m.ref f
  vars : SameVars m m'
  oom : m'.oom = m.oom

section
variable {A : PhysSys} {m m' m'' : Mem A} {role : Nat → Role}

theorem Freed.init (d : Nat) (m : Mem A) (role : Nat → Role) : Freed d [] m m role where
  phys := rfl
  nodup := .nil
  linked := nofun
  cut := nofun
  kept _ _ _ := rfl
  ref _ _ := rfl
  vars := .refl m
  oom := rfl

/-- The frame behind an entry of the tree, and what it is used for. -/
theorem Paged.linked_role (h : Paged m role) (hl : m.Linked role d g i) :
    ∃ p, role g = .node d p ∧ i < sv39.width p.length ∧
      (p.length < 2 ∧ role (ptePpn (m.frame g i)) = .node d (p ++ [i]) ∨
        p.length = 2 ∧ role (ptePpn (m.frame g i)) = .leaf) := by
  obtain ⟨⟨p, hg, hi⟩, hv⟩ := hl
  refine ⟨p, hg, hi, ?_⟩
  rcases Nat.lt_or_eq_of_le (h.tables.length_le hg) with hlt | heq
  · exact .inl ⟨hlt, h.tables.child g d p i hg hlt hi hv⟩
  · exact .inr ⟨heq, h.tables.leaf g d p i hg heq hi hv⟩

/-- An entry of the tree is determined by the frame behind it. -/
theorem Paged.linked_inj (h : Paged m role) (hl : m.Linked role d g i) (hl' : m.Linked role d g' i')
    (hu : role (ptePpn (m.frame g' i')) = .leaf → m.Unshared d)
    (he : ptePpn (m.frame g i) = ptePpn (m.frame g' i')) : g = g' ∧ i = i' := by
  obtain ⟨p, hg, hi, hr⟩ := h.linked_role hl
  obtain ⟨p', hg', hi', hr'⟩ := h.linked_role hl'
  rcases hr with ⟨-, hr⟩ | ⟨hp, hr⟩
  · rcases hr' with ⟨-, hr'⟩ | ⟨-, hr'⟩
    · rw [he, hr'] at hr
      obtain ⟨hpp, hii⟩ := List.append_inj' (Role.node.inj hr).2 rfl
      rw [hpp] at hg'
      exact ⟨h.tables.inj hg hg', (List.cons.inj hii).1.symm⟩
    · rw [he, hr'] at hr
      cases hr
  · rcases hr' with ⟨-, hr'⟩ | ⟨hp', -⟩
    · rw [← he, hr] at hr'
      cases hr'
    · have hu := hu (he ▸ hr)
      obtain ⟨v, hv, hpv, hiv, hfv⟩ := h.entry_vpn hg hp hi
      obtain ⟨w, hw, hpw, hiw, hfw⟩ := h.entry_vpn hg' hp' hi'
      have hval := hl.2
      have hval' := hl'.2
      rw [hfv] at he hval
      rw [hfw] at he hval'
      obtain rfl := hu v hv w hw hval hval' he
      rw [hpv] at hg
      rw [hpw] at hg'
      exact ⟨h.tables.inj hg hg', hiv.trans hiw.symm⟩

theorem Paged.linked_pool (h : Paged m role) (hl : m.Linked role d g i) :
    0x80200 ≤ ptePpn (m.frame g i) ∧ ptePpn (m.frame g i) < npage ∧
      ¬ A.free m.phys (ptePpn (m.frame g i)) ∧ ¬ A.arena m.phys (ptePpn (m.frame g i)) := by
  obtain ⟨p, -, -, hr⟩ := h.linked_role hl
  have hother : role (ptePpn (m.frame g i)) ≠ .other := by
    rcases hr with ⟨-, hr⟩ | ⟨-, hr⟩ <;> simp [hr]
  obtain ⟨h₁, h₂, h₃⟩ := h.pool _ hother
  refine ⟨h₁, h₂, fun hf => ?_, h₃⟩
  rw [← h.free] at hf
  rcases hr with ⟨-, hr⟩ | ⟨-, hr⟩ <;> rw [hf] at hr <;> cases hr

/-- Pages that are freed one after the other are free in the end. -/
theorem freeAll_free {s : A.σ} {l : List Nat} (hn : l.Nodup)
    (hl : ∀ f ∈ l, 0x80200 ≤ f ∧ f < npage ∧ ¬ A.free s f ∧ ¬ A.arena s f) :
    A.free (l.foldl (fun s f => A.freePages s f 1) s) f ↔ A.free s f ∨ f ∈ l := by
  induction l generalizing s with
  | nil => simp
  | cons x l ih =>
    obtain ⟨hx, hn⟩ := List.nodup_cons.1 hn
    obtain ⟨h₁, h₂, h₃, h₄⟩ := hl x (List.mem_cons_self ..)
    have hone (g : Nat) : A.free (A.freePages s x 1) g ↔ A.free s g ∨ g = x := by
      rw [A.freePages_free]
      · exact or_congr_right ⟨fun hg => by omega, fun hg => by omega⟩
      · intro g hg hg'
        obtain rfl : g = x := by omega
        exact ⟨h₁, h₂, h₃, h₄⟩
    rw [List.foldl_cons, ih hn, hone, List.mem_cons, or_assoc]
    intro g hg
    obtain ⟨g₁, g₂, g₃, g₄⟩ := hl g (List.mem_cons_of_mem _ hg)
    refine ⟨g₁, g₂, fun hf => ?_, by rwa [A.freePages_arena]⟩
    rcases (hone g).1 hf with hf | rfl
    · exact g₃ hf
    · exact hx hg

theorem Freed.free_iff (h : Freed d l m m' role) (hm : Paged m role) :
    A.free m'.phys f ↔ A.free m.phys f ∨ f ∈ l := by
  rw [h.phys, freeAll_free h.nodup]
  intro f hf
  obtain ⟨g, i, hl, rfl⟩ := h.linked f hf
  exact hm.linked_pool hl

/-- An entry in use that has not been cleared. -/
theorem Freed.entry_valid (h : Freed d l m m' role) (hg : role g = .node d p) (hi : i < sv39.width p.length) :
    pteValid (m'.frame g i) ↔ pteValid (m.frame g i) ∧ ptePpn (m.frame g i) ∉ l := by
  by_cases hv : pteValid (m.frame g i)
  · by_cases hm : ptePpn (m.frame g i) ∈ l
    · rw [h.cut g i ⟨⟨p, hg, hi⟩, hv⟩ hm, pteValid_zero]
      exact iff_of_false nofun fun hc => hc.2 hm
    · rw [h.kept g i fun hc => hm hc.2]
      simp [hv, hm]
  · rw [h.kept g i fun hc => hv hc.1.2]
    simp [hv]

/-- Give back the frame behind an entry, and clear the entry. -/
theorem Freed.free (h : Freed d l m m' role) (hm : Paged m role) (hl : m.Linked role d g i)
    (hu : role (ptePpn (m.frame g i)) = .leaf → m.Unshared d) (hn : ptePpn (m.frame g i) ∉ l) :
    Freed d (l ++ [ptePpn (m.frame g i)]) m ((m'.freePage (ptePpn (m.frame g i))).setEntry g i 0) role where
  phys := by
    show A.freePages m'.phys _ 1 = _
    rw [h.phys, List.foldl_append]
    rfl
  nodup := by
    refine List.nodup_append.2 ⟨h.nodup, List.pairwise_singleton .., fun x hx y hy => ?_⟩
    obtain rfl := List.mem_singleton.1 hy
    exact ne_of_mem_of_not_mem hx hn
  linked f hf := by
    rcases List.mem_append.1 hf with hf | hf
    · exact h.linked f hf
    · exact ⟨g, i, hl, (List.mem_singleton.1 hf).symm⟩
  cut g' i' hl' hf := by
    by_cases hgi : g' = g ∧ i' = i
    · obtain ⟨rfl, rfl⟩ := hgi
      rw [setEntry_frame_self, Function.update_self]
    · have hf' : ptePpn (m.frame g' i') ∈ l := by
        refine (List.mem_append.1 hf).resolve_right fun hf => hgi ?_
        exact hm.linked_inj hl' hl hu (List.mem_singleton.1 hf)
      rw [← h.cut g' i' hl' hf']
      by_cases hg : g' = g
      · subst hg
        rw [setEntry_frame_self, Function.update_of_ne fun hi => hgi ⟨rfl, hi⟩]
        rfl
      · rw [setEntry_frame_of_ne _ _ _ hg]
        rfl
  kept g' i' hc := by
    have hgi : ¬ (g' = g ∧ i' = i) := by
      rintro ⟨rfl, rfl⟩
      exact hc ⟨hl, List.mem_append_right _ (List.mem_singleton_self _)⟩
    rw [← h.kept g' i' fun hc' => hc ⟨hc'.1, List.mem_append_left _ hc'.2⟩]
    by_cases hg : g' = g
    · subst hg
      rw [setEntry_frame_self, Function.update_of_ne fun hi => hgi ⟨rfl, hi⟩]
      rfl
    · rw [setEntry_frame_of_ne _ _ _ hg]
      rfl
  ref f hf := by
    rw [List.mem_append, List.mem_singleton, not_or] at hf
    exact (Function.update_of_ne hf.2 ..).trans (h.ref f hf.1)
  vars := (h.vars.trans (.freePage ..)).trans (.setEntry ..)
  oom := h.oom

end

end UCore
