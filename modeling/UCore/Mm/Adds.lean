import UCore.Mm.Paging

namespace UCore
set_option autoImplicit true
open Function (update)

/-- What the operations keep that only add to the tree of the root `d`, where they may also take memory from
the heap and change the `mm_struct`s. -/
structure Adds {A : PhysSys} (d : Nat) (m m' : Mem A) (role role' : Nat → Role) : Prop where
  paged : Paged m' role'
  swapInitOk : m'.swapInitOk = m.swapInitOk
  checkMm : m'.checkMm = m.checkMm
  keeps : ∀ f, role f ≠ .free → role' f = role f
  fresh : ∀ f, role f = .free → ∀ c p, role' f = .node c p → c = d
  frame : ∀ f, role f ≠ .free → (∀ p, role f ≠ .node d p) → m'.frame f = m.frame f
  high : ∀ i, 256 ≤ i → m'.frame d i = m.frame d i
  ref : ∀ f, role f ≠ .free → m'.ref f = m.ref f
  oom : m.oom ≤ m'.oom
  pte : ∀ v < userVpn, pteValid (m.pteAt d v) → m'.pteAt d v = m.pteAt d v

section
variable {A : PhysSys} {m m' m'' : Mem A} {role role' role'' : Nat → Role}

theorem Adds.refl (d : Nat) (h : Paged m role) : Adds d m m role role where
  paged := h
  swapInitOk := rfl
  checkMm := rfl
  keeps _ _ := rfl
  fresh f hf c p hr := by
    rw [hf] at hr
    cases hr
  frame _ _ _ := rfl
  high _ _ := rfl
  ref _ _ := rfl
  oom := Nat.le_refl _
  pte _ _ _ := rfl

theorem Adds.trans (h : Adds d m m' role role') (h' : Adds d m' m'' role' role'') :
    Adds d m m'' role role'' where
  paged := h'.paged
  swapInitOk := h'.swapInitOk.trans h.swapInitOk
  checkMm := h'.checkMm.trans h.checkMm
  keeps f hf := by
    have hr := h.keeps f hf
    rw [h'.keeps f (by rwa [hr]), hr]
  fresh f hf c p hr := by
    by_cases hf' : role' f = .free
    · exact h'.fresh f hf' c p hr
    · rw [h'.keeps f hf'] at hr
      exact h.fresh f hf c p hr
  frame f hf hd := by
    have hr := h.keeps f hf
    rw [h'.frame f (by rwa [hr]) (by rwa [hr]), h.frame f hf hd]
  high i hi := (h'.high i hi).trans (h.high i hi)
  ref f hf := by
    have hr := h.keeps f hf
    rw [h'.ref f (by rwa [hr]), h.ref f hf]
  oom := Nat.le_trans h.oom h'.oom
  pte v hv hn := by
    have hp := h.pte v hv hn
    rw [h'.pte v hv (by rwa [hp]), hp]

theorem Adds.plain (h : Adds d m m' role role') (hp : m.Plain) : m'.Plain := by
  unfold Mem.Plain
  rw [h.swapInitOk, h.checkMm]
  exact hp

/-- The trees of other roots are left alone. -/
theorem Adds.other (h : Adds d m m' role role') (hm : Paged m role) (hc : role c = .node c [])
    (hcd : c ≠ d) (hv : v < userVpn) : m'.pteAt c v = m.pteAt c v := by
  have hc' := (h.keeps c (by rw [hc]; simp)).trans hc
  by_cases hf : ∃ f, role f = .node c (vpath v)
  · obtain ⟨f, hf⟩ := hf
    have hf' := (h.keeps f (by rw [hf]; simp)).trans hf
    rw [hm.pteAt_node hf hv, h.paged.pteAt_node hf' hv, h.frame f (by rw [hf]; simp)]
    rw [hf]
    intro p hp
    exact hcd (Role.node.inj hp).1
  · rw [hm.pteAt_none hc hv fun f hr => hf ⟨f, hr⟩, h.paged.pteAt_none hc' hv]
    intro f hr
    by_cases hfree : role f = .free
    · exact hcd (h.fresh f hfree c _ hr)
    · exact hf ⟨f, (h.keeps f hfree).symm.trans hr⟩

end

end UCore
