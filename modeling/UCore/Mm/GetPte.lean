import UCore.Mm.Adds

namespace UCore
set_option autoImplicit true
open Function (update)

/-- What an operation keeps that only adds tables and pages to the tree of the root `d`. -/
structure Grows {A : PhysSys} (d : Nat) (m m' : Mem A) (role role' : Nat → Role) : Prop where
  paged : Paged m' role'
  vars : SameVars m m'
  keeps : ∀ f, role f ≠ .free → role' f = role f
  fresh : ∀ f, role f = .free → role' f = .free ∨ role' f = .leaf ∨ ∃ p, role' f = .node d p
  frame : ∀ f, role f ≠ .free → (∀ p, role f ≠ .node d p) → m'.frame f = m.frame f
  high : ∀ i, 256 ≤ i → m'.frame d i = m.frame d i
  ref : ∀ f, role f ≠ .free → m'.ref f = m.ref f
  oom : m.oom ≤ m'.oom
  pte : ∀ v < userVpn, pteValid (m.pteAt d v) → m'.pteAt d v = m.pteAt d v

/-- Only tables are added, without entries. -/
structure Tabled {A : PhysSys} (d : Nat) (m m' : Mem A) (role role' : Nat → Role) : Prop extends
    Grows d m m' role role' where
  same : ∀ v < userVpn, m'.pteAt d v = m.pteAt d v
  leaf : ∀ f, role' f = .leaf ↔ role f = .leaf

section
variable {A : PhysSys} {m m' m'' : Mem A} {role role' role'' : Nat → Role}

theorem Grows.refl (d : Nat) (h : Paged m role) : Grows d m m role role where
  paged := h
  vars := .refl m
  keeps _ _ := rfl
  fresh _ hf := .inl hf
  frame _ _ _ := rfl
  high _ _ := rfl
  ref _ _ := rfl
  oom := Nat.le_refl _
  pte _ _ _ := rfl

theorem Grows.trans (h : Grows d m m' role role') (h' : Grows d m' m'' role' role'') :
    Grows d m m'' role role'' where
  paged := h'.paged
  vars := h.vars.trans h'.vars
  keeps f hf := by
    have hr := h.keeps f hf
    rw [h'.keeps f (by rwa [hr]), hr]
  fresh f hf := by
    rcases h.fresh f hf with hr | hr | ⟨p, hr⟩
    · exact h'.fresh f hr
    · exact .inr (.inl ((h'.keeps f (by rw [hr]; simp)).trans hr))
    · exact .inr (.inr ⟨p, (h'.keeps f (by rw [hr]; simp)).trans hr⟩)
  frame f hf hd := by
    have hr := h.keeps f hf
    rw [h'.frame f (by rwa [hr]) (by rwa [hr]), h.frame f hf hd]
  high i hi := (h'.high i hi).trans (h.high i hi)
  ref f hf := by
    have hr := h.keeps f hf
    rw [h'.ref f (by rwa [hr]), h.ref f hf]
  oom := Nat.le_trans h.oom h'.oom
  pte v hv hn := by
    have hp := h.pte v hv hn
    rw [h'.pte v hv (by rwa [hp]), hp]

theorem Grows.adds (h : Grows d m m' role role') : Adds d m m' role role' where
  paged := h.paged
  swapInitOk := h.vars.swapInitOk
  checkMm := h.vars.checkMm
  keeps := h.keeps
  fresh f hf c p hr := by
    rcases h.fresh f hf with hr' | hr' | ⟨q, hr'⟩ <;> rw [hr] at hr' <;> cases hr'
    rfl
  frame := h.frame
  high := h.high
  ref := h.ref
  oom := h.oom
  pte := h.pte

theorem Tabled.refl (d : Nat) (h : Paged m role) : Tabled d m m role role where
  toGrows := .refl d h
  same _ _ := rfl
  leaf _ := Iff.rfl

theorem Tabled.trans (h : Tabled d m m' role role') (h' : Tabled d m' m'' role' role'') :
    Tabled d m m'' role role'' where
  toGrows := h.toGrows.trans h'.toGrows
  same v hv := (h'.same v hv).trans (h.same v hv)
  leaf f := (h'.leaf f).trans (h.leaf f)

theorem Tabled.fail (d : Nat) (h : Paged m role) : Tabled d m m.fail role role where
  paged := ⟨h.tables, h.free, h.pool, h.unused⟩
  vars := .fail m
  keeps _ _ := rfl
  fresh _ hf := .inl hf
  frame _ _ _ := rfl
  high _ _ := rfl
  ref _ _ := rfl
  oom := Nat.le_succ _
  pte _ _ _ := rfl
  same _ _ := rfl
  leaf _ := Iff.rfl

theorem Paged.alloc_free (h : Paged m role) (ha : A.allocPages m.phys 1 = (some t, s)) :
    role t = .free :=
  (h.free t).2 (A.allocPages_some ha (Nat.le_refl t) (Nat.lt_succ_self t))

/-- The allocator has given out a page, which gets a role. -/
theorem Paged.alloc (h : Paged m role) (ha : A.allocPages m.phys 1 = (some t, m'.phys)) (hr : r ≠ .free)
    (href : ∀ f ≠ t, m'.ref f = m.ref f) (ht : Tables sv39 m'.frame (update role t r)) :
    Paged m' (update role t r) where
  tables := ht
  free f := by
    rw [A.allocPages_free ha, ← h.free]
    by_cases hft : f = t
    · subst hft
      rw [Function.update_self]
      exact iff_of_false hr fun hc => hc.2 ⟨Nat.le_refl _, Nat.lt_succ_self _⟩
    · rw [Function.update_of_ne hft]
      exact ⟨fun hf => ⟨hf, by omega⟩, fun hf => hf.1⟩
  pool f hf := by
    rw [A.allocPages_arena ha]
    by_cases hft : f = t
    · subst hft
      exact h.pool f (by rw [h.alloc_free ha]; simp)
    · rw [Function.update_of_ne hft] at hf
      exact h.pool f hf
  unused f hf := by
    by_cases hft : f = t
    · rw [hft, Function.update_self] at hf
      exact absurd hf hr
    · rw [Function.update_of_ne hft] at hf
      rw [href f hft, h.unused f hf]

/-- The memory with an empty table in the frame `t`, behind the entry `i` of the frame `e`. -/
def Mem.addTable (m : Mem A) (s : A.σ) (t e i : Nat) : Mem A :=
  (((m.setPhys s).setRef t 1).setFrame t fun _ => 0).setEntry e i (pteCreate t (pteU ||| pteV))

theorem addTable_frame (m : Mem A) (s : A.σ) (t e i : Nat) : (m.addTable s t e i).frame =
    update (update m.frame t fun _ => 0) e
      (update (update m.frame t (fun _ => 0) e) i (pteCreate t (pteU ||| pteV))) := rfl

theorem Paged.addTable (h : Paged m role) (ha : A.allocPages m.phys 1 = (some t, s))
    (he : role e = .node d p) (hl : p.length < 2) (hi : i < sv39.width p.length)
    (hv : pteValid (m.frame e i) = false) :
    Tabled d m (m.addTable s t e i) role (update role t (.node d (p ++ [i]))) := by
  have hfree := h.alloc_free ha
  have hd := h.tables.root_role he
  have hne (f : Nat) (hf : role f ≠ .free) : f ≠ t := by
    rintro rfl
    exact hf hfree
  have het : e ≠ t := hne e (by rw [he]; simp)
  have hw : ptePpn (pteCreate t (pteU ||| pteV)) = t := h.ppn_create (by rw [hfree]; simp) (by decide)
  have hpaged : Paged (m.addTable s t e i) (update role t (.node d (p ++ [i]))) :=
    h.alloc ha (by simp) (fun f hf => Function.update_of_ne hf ..)
      (h.tables.grow he hl hi hv hfree (pteValid_create ..) hw fun _ => rfl)
  have hframe (f : Nat) (hfe : f ≠ e) (hft : f ≠ t) : (m.addTable s t e i).frame f = m.frame f := by
    rw [addTable_frame, Function.update_of_ne hfe, Function.update_of_ne hft]
  -- the new table has no entries, so the addresses are mapped as before
  have hsame (v : Nat) (hv : v < userVpn) : (m.addTable s t e i).pteAt d v = m.pteAt d v := by
    by_cases hf : ∃ f, role f = .node d (vpath v)
    · obtain ⟨f, hf⟩ := hf
      have hft := hne f (by rw [hf]; simp)
      have hfe : f ≠ e := by
        rintro rfl
        rw [(Role.node.inj (he.symm.trans hf)).2] at hl
        exact absurd hl (Nat.lt_irrefl 2)
      rw [h.pteAt_node hf hv, hpaged.pteAt_node ((Function.update_of_ne hft ..).trans hf) hv,
        hframe f hfe hft]
    · have hd' := (Function.update_of_ne (hne d (by rw [hd]; simp)) (.node d (p ++ [i])) role).trans hd
      rw [h.pteAt_none hd hv fun f hr => hf ⟨f, hr⟩]
      by_cases ht : p ++ [i] = vpath v
      · rw [hpaged.pteAt_node (f := t) (by rw [Function.update_self, ht]) hv, addTable_frame,
          Function.update_of_ne het.symm, Function.update_self]
      · apply hpaged.pteAt_none hd' hv
        intro f hr
        by_cases hft : f = t
        · subst hft
          rw [Function.update_self] at hr
          exact ht (Role.node.inj hr).2
        · rw [Function.update_of_ne hft] at hr
          exact hf ⟨f, hr⟩
  constructor
  · constructor
    · exact hpaged
    · exact .trans (.alloc ha) ⟨rfl, rfl, rfl, rfl, rfl, rfl, rfl, rfl, rfl, rfl⟩
    · exact fun f hf => Function.update_of_ne (hne f hf) ..
    · intro f hf
      by_cases hft : f = t
      · subst hft
        exact .inr (.inr ⟨_, Function.update_self ..⟩)
      · exact .inl ((Function.update_of_ne hft ..).trans hf)
    · intro f hf hnode
      apply hframe f _ (hne f hf)
      rintro rfl
      exact hnode p he
    · intro j hj
      by_cases hde : d = e
      · subst hde
        obtain ⟨-, rfl⟩ := Role.node.inj (he.symm.trans hd)
        have hij : j ≠ i := by
          rintro rfl
          exact absurd hi (Nat.not_lt.2 hj)
        rw [addTable_frame, Function.update_self, Function.update_of_ne hij, Function.update_of_ne het]
      · rw [hframe d hde (hne d (by rw [hd]; simp))]
    · exact fun f hf => Function.update_of_ne (hne f hf) ..
    · exact Nat.le_refl _
    · exact fun v hv _ => hsame v hv
  · exact hsame
  · intro f
    by_cases hft : f = t
    · subst hft
      rw [Function.update_self, hfree]
      simp
    · rw [Function.update_of_ne hft]

theorem nextTable_spec (h : Paged m role) (hp : m.Plain) (he : role e = .node d p) (hl : p.length < 2)
    (hi : i < sv39.width p.length) (hn : m.nextTable e i true = some (r, m')) :
    ∃ role', Tabled d m m' role role' ∧ (r = none → m.oom < m'.oom) ∧
      ∀ t, r = some t → role' t = .node d (p ++ [i]) := by
  unfold Mem.nextTable at hn
  split at hn
  · rename_i hv
    have hr : role (ptePpn (m.frame e i)) = .node d (p ++ [i]) := h.tables.child e d p i he hl hi hv
    rw [h.kva (by rw [hr]; simp)] at hn
    cases hn
    refine ⟨role, .refl d h, nofun, fun t ht => ?_⟩
    cases ht
    exact hr
  · rename_i hv
    rw [if_pos rfl] at hn
    obtain ⟨⟨r₁, m₁⟩, hpage, hn⟩ := Option.bind_eq_some_iff.1 hn
    cases allocPages_plain hp hpage with
    | inl hno =>
      obtain ⟨rfl, rfl⟩ := hno
      cases hn
      exact ⟨role, .fail d h, fun _ => Nat.lt_succ_self _, nofun⟩
    | inr hok =>
      obtain ⟨t, s, rfl, ha, rfl⟩ := hok
      have hgrow := h.addTable ha he hl hi (Bool.eq_false_iff.2 hv)
      have hr : update role t (.node d (p ++ [i])) t = .node d (p ++ [i]) := Function.update_self ..
      obtain ⟨k, hk, hn⟩ := Option.bind_eq_some_iff.1 hn
      have hkt : kva t = some t := hgrow.paged.kva (by rw [hr]; simp)
      obtain rfl := Option.some.inj (hk.symm.trans hkt)
      have hentry : (m.addTable s k e i).frame e i = pteCreate k (pteU ||| pteV) := by
        rw [addTable_frame, Function.update_self, Function.update_self]
      have hw : ptePpn (pteCreate k (pteU ||| pteV)) = k :=
        hgrow.paged.ppn_create (by rw [hr]; simp) (by decide)
      change (UCore.kva (ptePpn ((m.addTable s k e i).frame e i))).map
        (fun t => (some t, m.addTable s k e i)) = some (r, m') at hn
      rw [hentry, hw, hk] at hn
      cases hn
      refine ⟨_, hgrow, nofun, fun t ht => ?_⟩
      cases ht
      exact hr

/-- `get_pte` finds or makes the tables for an address of the lower half. -/
theorem getPte_spec (h : Paged m role) (hp : m.Plain) (hd : role d = .node d []) (hv : vpn la < userVpn)
    (hg : m.getPte d la true = some (r, m')) :
    ∃ role', Tabled d m m' role role' ∧ (r = none → m.oom < m'.oom) ∧ ∀ t i, r = some (t, i) →
      role' t = .node d (vpath (vpn la)) ∧ i = vpn la % 2 ^ 9 := by
  obtain ⟨⟨r₁, m₁⟩, h₁, hg⟩ := Option.bind_eq_some_iff.1 hg
  rw [pdx1_eq] at h₁
  obtain ⟨role₁, ht₁, hno₁, hr₁⟩ := nextTable_spec h hp hd (show 0 < 2 by decide) (vpath_inWidth hv).1 h₁
  cases r₁ with
  | none =>
    cases hg
    exact ⟨role₁, ht₁, fun _ => hno₁ rfl, nofun⟩
  | some pd0 =>
    obtain ⟨⟨r₂, m₂⟩, h₂, hg⟩ := Option.bind_eq_some_iff.1 hg
    rw [pdx0_eq] at h₂
    obtain ⟨role₂, ht₂, hno₂, hr₂⟩ := nextTable_spec ht₁.paged (ht₁.vars.plain hp) (hr₁ pd0 rfl)
      (show 1 < 2 by decide) (vpath_inWidth hv).2.1 h₂
    refine ⟨role₂, ?_⟩
    cases r₂ with
    | none =>
      cases hg
      exact ⟨ht₁.trans ht₂, fun _ => Nat.lt_of_le_of_lt ht₁.oom (hno₂ rfl), nofun⟩
    | some pt =>
      cases hg
      refine ⟨ht₁.trans ht₂, nofun, fun t i ht => ?_⟩
      cases ht
      exact ⟨hr₂ pt rfl, ptx_eq la⟩

/-- Without `create`, `get_pte` changes nothing. -/
theorem getPte_false (m : Mem A) (d la : Nat) :
    m.getPte d la false = (m.pteSlot d la).map fun r => (r, m) := by
  unfold Mem.getPte Mem.nextTable Mem.pteSlot
  by_cases h1 : pteValid (m.frame d (pdx1 la))
  · rw [if_pos h1, if_pos h1]
    cases kva (ptePpn (m.frame d (pdx1 la))) with
    | none => rfl
    | some pd0 =>
      simp only [Option.map_some, Option.bind_eq_bind, Option.bind_some]
      by_cases h0 : pteValid (m.frame pd0 (pdx0 la))
      · rw [if_pos h0, if_pos h0]
        cases kva (ptePpn (m.frame pd0 (pdx0 la))) <;> rfl
      · rw [if_neg h0, if_neg h0]
        rfl
  · rw [if_neg h1, if_neg h1]
    rfl

end

end UCore
