import UCore.Mm.RangeLoop
import UCore.Mm.RefCount

namespace UCore
set_option autoImplicit true
open Function (update)

section
variable {A : PhysSys} {m m' m'' : Mem A} {role role' role'' : Nat → Role} {dirs : Finset Nat}
  {K : Nat → Prop}

/-- Storing one entry changes the counts of the old and of the new frame by one. -/
theorem Counted.count_setPte (h : Counted dirs K m role) (hf : role f = .node d (vpath v))
    (hv : v < userVpn) (he : pteValid e → role (ptePpn e) = .leaf) (p : Nat) :
    (m.setEntry f (v % 2 ^ 9) e).mapCount dirs p + (if m.mapped (d, v) = some p then 1 else 0) =
      m.mapCount dirs p + if pteFrame e = some p then 1 else 0 := by
  have hd := h.tables.root_role hf
  refine (congrArg (· + _) (tally_congr ?_ p)).trans
    (tally_update (f := m.mapped) (mem_userSlots.2 ⟨(h.root d).1 hd, hv⟩) (pteFrame e) p)
  intro x hx
  obtain ⟨hc, hw⟩ := mem_userSlots.1 hx
  unfold Mem.mapped
  rw [h.pteAt_setPte hf hv he ((h.root _).2 hc) hw]
  by_cases hx : x = (d, v)
  · subst hx
    rw [if_pos ⟨rfl, rfl⟩, Function.update_self]
  · rw [if_neg fun hc => hx (Prod.ext hc.1 hc.2), Function.update_of_ne hx]

/-- Store an entry of the last level, and the references that are right then. -/
theorem Counted.store (h : Counted dirs K m role) (hf : role f = .node d (vpath v))
    (he : pteValid e → role (ptePpn e) = .leaf) (ref : Nat → Int)
    (hfree : ∀ p, role p = .free → ref p = 0)
    (hleaf : ∀ p, role p = .leaf → ref p = (m.setEntry f i e).mapCount dirs p) :
    Counted dirs K { m.setEntry f i e with ref := ref } role where
  tables := h.tables.setLeaf hf rfl he
  free := h.free
  pool := h.pool
  unused := hfree
  off := h.off
  root := h.root
  kernel := h.kernel
  exact p hp := hleaf p hp

/-- The frame in a slot. -/
theorem Counted.slot (h : Counted dirs K m role) (hf : role f = .node d (vpath v)) (hv : v < userVpn) :
    pteFrame (m.frame f (v % 2 ^ 9)) = m.mapped (d, v) := by
  unfold Mem.mapped
  rw [h.pteAt_node hf hv]

/-- A frame in a slot is a leaf, and it is counted. -/
theorem Counted.mapped_leaf (h : Counted dirs K m role) (hd : d ∈ dirs) (hv : v < userVpn)
    (hm : m.mapped (d, v) = some q) : role q = .leaf ∧ 0 < m.mapCount dirs q := by
  obtain ⟨hval, rfl⟩ := pteFrame_eq_some.1 hm
  refine ⟨h.mapped ((h.root d).2 hd) hv hval, Nat.pos_of_ne_zero fun hz => ?_⟩
  exact tally_eq_zero.1 hz _ (mem_userSlots.2 ⟨hd, hv⟩) hm

theorem Counted.freePage (h : Counted dirs K m role) (hq : role q = .leaf) (hz : m.mapCount dirs q = 0) :
    Counted dirs K (m.freePage q) (update role q .free) ∧
      ∀ p, (m.freePage q).mapCount dirs p = m.mapCount dirs p := by
  have hpaged : Paged (m.freePage q) (update role q .free) := by
    apply h.freeLeaf hq
    intro f c p i hf hl hi hv he
    obtain ⟨v, hlt, -, -, hentry⟩ := h.entry_vpn hf hl hi
    rw [hentry] at hv he
    have hc := (h.root c).1 (h.tables.root_role hf)
    exact tally_eq_zero.1 hz _ (mem_userSlots.2 ⟨hc, hlt⟩) (pteFrame_eq_some.2 ⟨hv, he⟩)
  have hcount (p : Nat) : (m.freePage q).mapCount dirs p = m.mapCount dirs p := rfl
  exact ⟨h.retag hpaged rfl (.inr hq) (.inl rfl) hcount (fun p hp => Function.update_of_ne hp ..) nofun, hcount⟩

/-- What `page_remove_pte` does at the slot of the page number `v`. -/
structure Removed {A : PhysSys} (dirs : Finset Nat) (K : Nat → Prop) (d v : Nat) (m m' : Mem A)
    (role role' : Nat → Role) : Prop extends Counted dirs K m' role' where
  frees : m.Frees dirs m'
  gone : m'.mapped (d, v) = none
  keeps : ∀ f, m.mapped (d, v) ≠ some f → role' f = role f ∧ m'.ref f = m.ref f
  count : ∀ p, m.mapped (d, v) ≠ some p → m'.mapCount dirs p = m.mapCount dirs p

theorem Counted.pageRemovePte (h : Counted dirs K m role) (hf : role f = .node d (vpath v))
    (hv : v < userVpn) (hr : m.pageRemovePte f (v % 2 ^ 9) = some m') :
    ∃ role', Removed dirs K d v m m' role role' := by
  have hd := (h.root d).1 (h.tables.root_role hf)
  have hslot := h.slot hf hv
  unfold Mem.pageRemovePte at hr
  split at hr
  · rename_i hval
    obtain ⟨q, hk, hr⟩ := Option.bind_eq_some_iff.1 hr
    have hmap : m.mapped (d, v) = some (ptePpn (m.frame f (v % 2 ^ 9))) := by
      rw [← hslot]
      exact pteFrame_eq_some.2 ⟨hval, rfl⟩
    obtain ⟨hq, hpos⟩ := h.mapped_leaf hd hv hmap
    obtain rfl : _ = q := Option.some.inj ((h.kva (by rw [hq]; simp)).symm.trans hk)
    generalize ptePpn (m.frame f (v % 2 ^ 9)) = q at *
    have hcount (p : Nat) : (m.setEntry f (v % 2 ^ 9) 0).mapCount dirs p + (if q = p then 1 else 0) =
        m.mapCount dirs p := by
      have hc := h.count_setPte (e := 0) hf hv nofun p
      have hnone : pteFrame 0 = none := rfl
      rw [hmap, hnone] at hc
      simpa using hc
    have hself : (m.setEntry f (v % 2 ^ 9) 0).mapCount dirs q + 1 = m.mapCount dirs q := by
      simpa using hcount q
    have hother (p : Nat) (hp : p ≠ q) :
        (m.setEntry f (v % 2 ^ 9) 0).mapCount dirs p = m.mapCount dirs p := by
      simpa [hp.symm] using hcount p
    have href := h.exact q hq
    -- the reference has gone together with the entry
    have hst : Counted dirs K ((m.setRef q (m.ref q - 1)).setEntry f (v % 2 ^ 9) 0) role := by
      refine h.store (i := v % 2 ^ 9) (e := 0) hf nofun (update m.ref q (m.ref q - 1)) ?_ ?_
      · intro p hp
        have hpq : p ≠ q := by
          rintro rfl
          rw [hp] at hq
          cases hq
        rw [Function.update_of_ne hpq, h.unused p hp]
      · intro p hp
        by_cases hpq : p = q
        · subst hpq
          rw [Function.update_self, href]
          omega
        · rw [Function.update_of_ne hpq, hother p hpq, h.exact p hp]
    have hgone : ((m.setRef q (m.ref q - 1)).setEntry f (v % 2 ^ 9) 0).mapped (d, v) = none := by
      rw [← hst.slot hf hv, setEntry_frame_self, Function.update_self]
      rfl
    have hne (p : Nat) (hp : m.mapped (d, v) ≠ some p) : p ≠ q := by
      rintro rfl
      exact hp hmap
    have hrefq : (m.setRef q (m.ref q - 1)).ref q = m.ref q - 1 := Function.update_self ..
    have hsetref (p : Nat) : ((m.setRef q (m.ref q - 1)).setEntry f (v % 2 ^ 9) 0).mapCount dirs p =
        (m.setEntry f (v % 2 ^ 9) 0).mapCount dirs p := rfl
    by_cases hz : (m.setRef q (m.ref q - 1)).ref q = 0
    · dsimp only at hr
      rw [if_pos hz] at hr
      obtain rfl : m' = ((m.setRef q (m.ref q - 1)).setEntry f (v % 2 ^ 9) 0).freePage q :=
        (Option.some.inj hr).symm
      have hzero : (m.setEntry f (v % 2 ^ 9) 0).mapCount dirs q = 0 := by omega
      obtain ⟨hfree, hsame⟩ := hst.freePage hq hzero
      refine ⟨update role q .free, hfree, fun p hp => ?_, hgone, fun p hp => ?_, fun p hp => ?_⟩
      · rw [← h.free] at hp
        rw [← hfree.free]
        by_cases hpq : p = q
        · subst hpq
          rw [Function.update_self]
          exact iff_of_true rfl ⟨hpos, hzero⟩
        · rw [Function.update_of_ne hpq, hsame, hsetref, hother p hpq]
          exact iff_of_false hp (by omega)
      · have hpq := hne p hp
        refine ⟨Function.update_of_ne hpq .., ?_⟩
        exact (Function.update_of_ne hpq ..).trans (Function.update_of_ne hpq ..)
      · exact hother p (hne p hp)
    · dsimp only at hr
      rw [if_neg hz] at hr
      cases hr
      have hnz : (m.setEntry f (v % 2 ^ 9) 0).mapCount dirs q ≠ 0 := by omega
      refine ⟨role, hst, fun p hp => ?_, hgone, fun p hp => ?_, fun p hp => ?_⟩
      · refine iff_of_false hp ?_
        by_cases hpq : p = q
        · subst hpq
          exact fun hc => hnz hc.2
        · rw [hsetref, hother p hpq]
          omega
      · exact ⟨rfl, Function.update_of_ne (hne p hp) ..⟩
      · exact hother p (hne p hp)
  · rename_i hval
    cases hr
    refine ⟨role, h, (Quiet.refl dirs m).frees_self, ?_, fun _ _ => ⟨rfl, rfl⟩, fun _ _ => rfl⟩
    rw [← hslot, pteFrame, if_neg hval]

/-- Map a page in a slot that is not in use. -/
theorem Counted.insert (h : Counted dirs K m role) (hf : role f = .node d (vpath v)) (hv : v < userVpn)
    (hp : role p = .leaf) (hn : m.mapped (d, v) = none) (he : pteFrame e = some p) :
    Counted dirs K ((m.setRef p (m.ref p + 1)).setEntry f (v % 2 ^ 9) e) role ∧ ∀ q,
      ((m.setRef p (m.ref p + 1)).setEntry f (v % 2 ^ 9) e).mapCount dirs q =
        m.mapCount dirs q + if q = p then 1 else 0 := by
  have hleaf (_ : pteValid e) : role (ptePpn e) = .leaf := by
    rw [(pteFrame_eq_some.1 he).2, hp]
  have hcount (q : Nat) : (m.setEntry f (v % 2 ^ 9) e).mapCount dirs q =
      m.mapCount dirs q + if q = p then 1 else 0 := by
    have hc := h.count_setPte hf hv hleaf q
    rw [hn, he] at hc
    simpa [eq_comm] using hc
  refine ⟨h.store hf hleaf (update m.ref p (m.ref p + 1)) ?_ ?_, hcount⟩
  · intro q hq
    have hqp : q ≠ p := by
      rintro rfl
      rw [hq] at hp
      cases hp
    rw [Function.update_of_ne hqp, h.unused q hq]
  · intro q hq
    rw [hcount]
    by_cases hqp : q = p
    · subst hqp
      rw [Function.update_self, if_pos rfl, h.exact q hq]
      rfl
    · rw [Function.update_of_ne hqp, if_neg hqp, h.exact q hq]
      rfl

/-- After a step that frees, a page is mapped once more. -/
theorem Mem.Frees.insert (h : m.Frees dirs m') (hp : ¬ A.free m'.phys p) (hs : m''.phys = m'.phys)
    (hc : ∀ q, m''.mapCount dirs q = m'.mapCount dirs q + if q = p then 1 else 0) :
    m.Frees dirs m'' := by
  intro q hq
  rw [hs, hc]
  by_cases hqp : q = p
  · subst hqp
    rw [if_pos rfl]
    exact iff_of_false hp (by omega)
  · rw [if_neg hqp]
    exact h q hq

theorem pteFrame_create (h : Paged m role) (hp : role p = .leaf) (hb : PermBits perm) :
    pteFrame (pteCreate p (pteV ||| perm)) = some p :=
  pteFrame_eq_some.2 ⟨pteValid_create .., h.ppn_create (by rw [hp]; simp) hb.valid⟩

/-- `page_remove_pte` leaves the references of other pages alone. -/
theorem pageRemovePte_setRef (hq : kva (ptePpn (m.frame f i)) = some q) (hqp : q ≠ p) :
    (m.setRef p (m.ref p + 1)).pageRemovePte f i =
      (m.pageRemovePte f i).map fun m => m.setRef p (m.ref p + 1) := by
  unfold Mem.pageRemovePte
  have hframe : (m.setRef p (m.ref p + 1)).frame = m.frame := rfl
  rw [hframe, hq]
  split
  · have href : (m.setRef p (m.ref p + 1)).ref q = m.ref q := Function.update_of_ne hqp ..
    simp only [Option.bind_eq_bind, Option.bind_some, Option.map_some, Option.some.injEq]
    have hself (m : Mem A) (x : Int) : (m.setRef q x).ref q = x := Function.update_self ..
    simp only [href, hself]
    have hcomm : (m.setRef p (m.ref p + 1)).setRef q (m.ref q - 1) =
        (m.setRef q (m.ref q - 1)).setRef p (m.ref p + 1) := by
      unfold Mem.setRef
      rw [Function.update_comm hqp.symm]
    rw [hcomm]
    by_cases hz : m.ref q - 1 = 0
    · rw [if_pos hz, if_pos hz]
      unfold Mem.setEntry Mem.setFrame Mem.freePage Mem.setRef
      dsimp only
      rw [Function.update_comm hqp.symm, Function.update_of_ne hqp.symm, Function.update_of_ne hqp.symm]
    · rw [if_neg hz, if_neg hz]
      unfold Mem.setEntry Mem.setFrame Mem.setRef
      dsimp only
      rw [Function.update_of_ne hqp.symm]
  · rfl

/-- `page_insert` once it has the slot: the new reference is counted before the old entry is looked at. -/
theorem Counted.replace (h : Counted dirs K m role) (hf : role f = .node d (vpath v)) (hv : v < userVpn)
    (hp : role p = .leaf) (he : pteFrame e = some p)
    (hm : (if pteValid (m.frame f (v % 2 ^ 9)) then do
        let q ← kva (ptePpn (m.frame f (v % 2 ^ 9)))
        if q = p then
          some ((m.setRef p (m.ref p + 1)).setRef p ((m.setRef p (m.ref p + 1)).ref p - 1))
        else (m.setRef p (m.ref p + 1)).pageRemovePte f (v % 2 ^ 9)
      else some (m.setRef p (m.ref p + 1))) = some m') :
    ∃ role', Counted dirs K (m'.setEntry f (v % 2 ^ 9) e) role' ∧
      m.Frees dirs (m'.setEntry f (v % 2 ^ 9) e) := by
  have hd := (h.root d).1 (h.tables.root_role hf)
  have hslot := h.slot hf hv
  have hnf : ¬ A.free m.phys p := by
    rw [← h.free, hp]
    simp
  split at hm
  · rename_i hval
    obtain ⟨q, hk, hm⟩ := Option.bind_eq_some_iff.1 hm
    have hmap : m.mapped (d, v) = some (ptePpn (m.frame f (v % 2 ^ 9))) := by
      rw [← hslot]
      exact pteFrame_eq_some.2 ⟨hval, rfl⟩
    obtain ⟨hq, -⟩ := h.mapped_leaf hd hv hmap
    obtain rfl : _ = q := Option.some.inj ((h.kva (by rw [hq]; simp)).symm.trans hk)
    split at hm
    · rename_i hqp
      cases hm
      have href : update (update m.ref p (m.ref p + 1)) p ((m.setRef p (m.ref p + 1)).ref p - 1) = m.ref := by
        rw [show (m.setRef p (m.ref p + 1)).ref p = m.ref p + 1 from Function.update_self ..,
          Function.update_idem, show m.ref p + 1 - 1 = m.ref p by omega, Function.update_eq_self]
      have hleaf (_ : pteValid e) : role (ptePpn e) = .leaf := by
        rw [(pteFrame_eq_some.1 he).2, hp]
      have hcount (x : Nat) : (m.setEntry f (v % 2 ^ 9) e).mapCount dirs x = m.mapCount dirs x := by
        have hc := h.count_setPte hf hv hleaf x
        rw [hmap, he, hqp] at hc
        omega
      have hst := h.store (i := v % 2 ^ 9) hf hleaf m.ref h.unused fun x hx => by rw [hcount, h.exact x hx]
      refine ⟨role, ?_, ?_⟩
      · show Counted dirs K { m.setEntry f (v % 2 ^ 9) e with
          ref := update (update m.ref p (m.ref p + 1)) p ((m.setRef p (m.ref p + 1)).ref p - 1) } role
        rw [href]
        exact hst
      · exact Quiet.frees_self ⟨hcount, fun _ hx => hx⟩
    · rename_i hqp
      rw [pageRemovePte_setRef hk hqp] at hm
      obtain ⟨m₁, hr, hm⟩ := Option.map_eq_some_iff.1 hm
      cases hm
      obtain ⟨role₁, h₁⟩ := h.pageRemovePte hf hv hr
      have hne (x : Nat) (hx : role x ≠ .leaf ∨ x = p) : m.mapped (d, v) ≠ some x := by
        rw [hmap]
        rintro hc
        cases hc
        rcases hx with hx | hx
        · exact hx hq
        · exact hqp hx
      have hf₁ : role₁ f = .node d (vpath v) := (h₁.keeps f (hne f (.inl (by rw [hf]; simp)))).1.trans hf
      have hp₁ : role₁ p = .leaf := (h₁.keeps p (hne p (.inr rfl))).1.trans hp
      have hnf₁ : ¬ A.free m₁.phys p := by
        rw [← h₁.free, hp₁]
        simp
      obtain ⟨hc, hcount⟩ := h₁.toCounted.insert hf₁ hv hp₁ h₁.gone he
      exact ⟨role₁, hc, h₁.frees.insert hnf₁ rfl hcount⟩
  · rename_i hval
    cases hm
    have hnone : m.mapped (d, v) = none := by
      rw [← hslot]
      exact if_neg hval
    obtain ⟨hc, hcount⟩ := h.insert hf hv hp hnone he
    exact ⟨role, hc, (Quiet.refl dirs m).frees_self.insert hnf rfl hcount⟩

/-- `page_insert` at any address of a directory, whatever is mapped there. -/
theorem Counted.pageInsert (h : Counted dirs K m role) (hd : d ∈ dirs) (hv : vpn la < userVpn)
    (hb : PermBits perm) (hp : role p = .leaf) (hi : m.pageInsert d p la perm = some (ok, m')) :
    ∃ role', Counted dirs K m' role' ∧ m.Frees dirs m' ∧
      (ok = false → Quiet dirs m m' ∧ role' p = .leaf) := by
  obtain ⟨⟨r, m₁⟩, hg, hi⟩ := Option.bind_eq_some_iff.1 hi
  obtain ⟨role₁, ht, -, hslot⟩ := getPte_spec h.toPaged h.plain ((h.root d).2 hd) hv hg
  obtain ⟨h₁, hquiet⟩ := h.tabled ht hd
  have hp₁ : role₁ p = .leaf := (ht.leaf p).2 hp
  cases r with
  | none =>
    cases hi
    exact ⟨role₁, h₁, hquiet.frees_self, fun _ => ⟨hquiet, hp₁⟩⟩
  | some slot =>
    obtain ⟨pt, i⟩ := slot
    obtain ⟨hpt, rfl⟩ := hslot pt i rfl
    obtain ⟨m₂, hm, hi⟩ := Option.bind_eq_some_iff.1 hi
    cases hi
    obtain ⟨role₂, h₂, hfrees⟩ := h₁.replace hpt hv hp₁ (pteFrame_create h₁.toPaged hp₁ hb) hm
    exact ⟨role₂, h₂, hquiet.frees hfrees, nofun⟩

end

end UCore
