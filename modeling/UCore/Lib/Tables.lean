import Mathlib.Data.List.Induction
import Mathlib.Logic.Function.Basic

namespace UCore
set_option autoImplicit true
open Function (update)

/-- A format of lookup tables that are kept in frames: `depth` levels of tables above the last, each level
with its number of entries. -/
structure TableFmt (E : Type) where
  valid : E → Bool
  target : E → Nat
  depth : Nat
  width : Nat → Nat

/-- What a frame is used for. The node at a path belongs to the tree of a root. -/
inductive Role where
  | free
  | node (root : Nat) (path : List Nat)
  | leaf
  | other
  deriving DecidableEq, Repr

/-- The frames hold trees of tables, with the given roles: an entry leads to the table at its own place,
entries of the last level lead to leaves, and each table but the roots is in one entry. -/
structure Tables {E : Type} (F : TableFmt E) (frame : Nat → Nat → E) (role : Nat → Role) : Prop where
  root : ∀ f d, role f = .node d [] → f = d
  child : ∀ f d p i, role f = .node d p → p.length < F.depth → i < F.width p.length →
    F.valid (frame f i) → role (F.target (frame f i)) = .node d (p ++ [i])
  leaf : ∀ f d p i, role f = .node d p → p.length = F.depth → i < F.width p.length →
    F.valid (frame f i) → role (F.target (frame f i)) = .leaf
  parent : ∀ f d p i, role f = .node d (p ++ [i]) → p.length < F.depth ∧ i < F.width p.length ∧
    ∃ e, role e = .node d p ∧ F.valid (frame e i) ∧ F.target (frame e i) = f

namespace TableFmt
variable {E : Type} (F : TableFmt E) (frame : Nat → Nat → E)

/-- The frame at the end of a path of valid entries. -/
def walk : Nat → List Nat → Option Nat
  | f, [] => some f
  | f, i :: p => if F.valid (frame f i) then walk (F.target (frame f i)) p else none

/-- The indices of a path from level `n` on are within the tables. -/
def InWidth (n : Nat) : List Nat → Prop
  | [] => True
  | i :: p => i < F.width n ∧ InWidth (n + 1) p

variable {F frame}

theorem walk_append : F.walk frame f (p ++ q) = (F.walk frame f p).bind fun g => F.walk frame g q := by
  induction p generalizing f with
  | nil => rfl
  | cons i p ih =>
    simp only [List.cons_append, walk]
    split
    · exact ih
    · rfl

/-- Where entries have only been cleared, there are no new paths. -/
theorem walk_mono (h : ∀ f i, F.valid (frame' f i) → frame' f i = frame f i)
    (hw : F.walk frame' f p = some g) : F.walk frame f p = some g := by
  induction p generalizing f with
  | nil => exact hw
  | cons i p ih =>
    rw [walk] at hw ⊢
    split at hw
    · rename_i hv
      rw [← h f i hv, if_pos hv]
      exact ih hw
    · cases hw

theorem inWidth_append : F.InWidth n (p ++ q) ↔ F.InWidth n p ∧ F.InWidth (n + p.length) q := by
  induction p generalizing n with
  | nil => simp [InWidth]
  | cons i p ih =>
    rw [List.cons_append, InWidth, InWidth, ih, and_assoc, List.length_cons, Nat.add_assoc, Nat.add_comm 1]

theorem inWidth_snoc : F.InWidth 0 (p ++ [i]) ↔ F.InWidth 0 p ∧ i < F.width p.length := by
  simp [inWidth_append, InWidth]

end TableFmt

namespace Tables
variable {E : Type} {F : TableFmt E} {frame frame' : Nat → Nat → E} {role role' : Nat → Role}

theorem length_le (h : Tables F frame role) (hf : role f = .node d p) : p.length ≤ F.depth := by
  induction p using List.reverseRecOn with
  | nil => exact Nat.zero_le _
  | append_singleton p i _ =>
    obtain ⟨hlt, -⟩ := h.parent f d p i hf
    rw [List.length_append, List.length_singleton]
    omega

theorem inWidth (h : Tables F frame role) (hf : role f = .node d p) : F.InWidth 0 p := by
  induction p using List.reverseRecOn generalizing f with
  | nil => trivial
  | append_singleton p i ih =>
    obtain ⟨-, hi, e, he, -⟩ := h.parent f d p i hf
    exact TableFmt.inWidth_snoc.2 ⟨ih he, hi⟩

theorem root_role (h : Tables F frame role) (hf : role f = .node d p) : role d = .node d [] := by
  induction p using List.reverseRecOn generalizing f with
  | nil =>
    have hfd := h.root f d hf
    rwa [hfd] at hf
  | append_singleton p i ih =>
    obtain ⟨-, -, e, he, -⟩ := h.parent f d p i hf
    exact ih he

/-- The walk from a root reaches exactly the table at the path. -/
theorem walk_iff (h : Tables F frame role) (hd : role d = .node d []) (hp : F.InWidth 0 p)
    (hl : p.length ≤ F.depth) : F.walk frame d p = some f ↔ role f = .node d p := by
  induction p using List.reverseRecOn generalizing f with
  | nil =>
    constructor
    · intro hw
      cases hw
      exact hd
    · intro hf
      rw [h.root f d hf]
      rfl
  | append_singleton p i ih =>
    obtain ⟨hp, hi⟩ := TableFmt.inWidth_snoc.1 hp
    rw [List.length_append, List.length_singleton] at hl
    rw [TableFmt.walk_append, Option.bind_eq_some_iff]
    constructor
    · rintro ⟨e, he, hw⟩
      have hre := (ih hp (by omega)).1 he
      unfold TableFmt.walk at hw
      split at hw
      · rename_i hv
        cases hw
        exact h.child e d p i hre (by omega) hi hv
      · cases hw
    · intro hf
      obtain ⟨-, -, e, he, hv, ht⟩ := h.parent f d p i hf
      refine ⟨e, (ih hp (by omega)).2 he, ?_⟩
      rw [TableFmt.walk, if_pos hv, ht]
      rfl

/-- There is one table at a path. -/
theorem inj (h : Tables F frame role) (hf : role f = .node d p) (hg : role g = .node d p) : f = g := by
  have hd := h.root_role hf
  have hw := (h.walk_iff hd (h.inWidth hf) (h.length_le hf)).2 hf
  have hw' := (h.walk_iff hd (h.inWidth hf) (h.length_le hf)).2 hg
  exact Option.some.inj (hw.symm.trans hw')

/-- Only the frames with tables matter. -/
theorem congr (h : Tables F frame role) (hf : ∀ f d p, role f = .node d p → frame' f = frame f) :
    Tables F frame' role where
  root := h.root
  child f d p i hr := by
    rw [hf f d p hr]
    exact h.child f d p i hr
  leaf f d p i hr := by
    rw [hf f d p hr]
    exact h.leaf f d p i hr
  parent f d p i hr := by
    obtain ⟨hl, hi, e, he, hv, ht⟩ := h.parent f d p i hr
    refine ⟨hl, hi, e, he, ?_⟩
    rw [hf e d p he]
    exact ⟨hv, ht⟩

/-- Only which frames are tables, and which are leaves in use, matters. -/
theorem retag (h : Tables F frame role) (hn : ∀ f d p, role' f = .node d p ↔ role f = .node d p)
    (hl : ∀ f d p i, role f = .node d p → p.length = F.depth → i < F.width p.length →
      F.valid (frame f i) → role' (F.target (frame f i)) = .leaf) : Tables F frame role' where
  root f d hr := h.root f d ((hn ..).1 hr)
  child f d p i hr hp hi hv := (hn ..).2 (h.child f d p i ((hn ..).1 hr) hp hi hv)
  leaf f d p i hr hp hi hv := hl f d p i ((hn ..).1 hr) hp hi hv
  parent f d p i hr := by
    obtain ⟨hp, hi, e, he, hv⟩ := h.parent f d p i ((hn ..).1 hr)
    exact ⟨hp, hi, e, (hn ..).2 he, hv⟩

/-- A frame that is no table takes another role, where that is not one in use as a leaf. -/
theorem setRole (h : Tables F frame role) (hx : ∀ d p, role x ≠ .node d p) (hr : ∀ d p, r ≠ .node d p)
    (hl : ∀ f d p i, role f = .node d p → p.length = F.depth → i < F.width p.length →
      F.valid (frame f i) → F.target (frame f i) = x → r = .leaf) :
    Tables F frame (update role x r) := by
  apply h.retag
  · intro f d p
    by_cases hf : f = x
    · subst hf
      rw [Function.update_self]
      exact iff_of_false (hr d p) (hx d p)
    · rw [Function.update_of_ne hf]
  · intro f d p i hf hp hi hv
    by_cases hx : F.target (frame f i) = x
    · rw [hx, Function.update_self]
      exact hl f d p i hf hp hi hv hx
    · rw [Function.update_of_ne hx]
      exact h.leaf f d p i hf hp hi hv

/-- Store an entry of the last level, which may lead to a leaf. -/
theorem setLeaf (h : Tables F frame role) (hf : role f = .node d p) (hp : p.length = F.depth)
    (hw : F.valid w → role (F.target w) = .leaf) :
    Tables F (update frame f (update (frame f) i w)) role where
  root := h.root
  child g e q j hg hq := by
    have hne : g ≠ f := by
      rintro rfl
      have := (Role.node.inj (hf.symm.trans hg)).2
      subst this
      omega
    rw [Function.update_of_ne hne]
    exact h.child g e q j hg hq
  leaf g e q j hg hq hj := by
    by_cases hne : g = f
    · subst hne
      rw [Function.update_self]
      by_cases hji : j = i
      · subst hji
        rw [Function.update_self]
        exact hw
      · rw [Function.update_of_ne hji]
        exact h.leaf g e q j hg hq hj
    · rw [Function.update_of_ne hne]
      exact h.leaf g e q j hg hq hj
  parent g e q j hg := by
    obtain ⟨hl, hj, x, hx, hv⟩ := h.parent g e q j hg
    have hne : x ≠ f := by
      rintro rfl
      have := (Role.node.inj (hf.symm.trans hx)).2
      subst this
      omega
    refine ⟨hl, hj, x, hx, ?_⟩
    rwa [Function.update_of_ne hne]

/-- Put an empty table behind an entry that is not in use. -/
theorem grow (h : Tables F frame role) (he : role e = .node d p) (hp : p.length < F.depth)
    (hi : i < F.width p.length) (hnv : F.valid (frame e i) = false) (ht : role t = .free)
    (hw : F.valid w) (hwt : F.target w = t) (hz : ∀ j, F.valid (z j) = false) :
    Tables F (update (update frame t z) e (update (update frame t z e) i w))
      (update role t (.node d (p ++ [i]))) := by
  have het : e ≠ t := by
    rintro rfl
    rw [he] at ht
    cases ht
  rw [Function.update_of_ne het]
  -- the entries of the old tables, but for the new one
  have hold (f : Nat) (hft : f ≠ t) (j : Nat) (hfj : ¬ (f = e ∧ j = i)) :
      update (update frame t z) e (update (frame e) i w) f j = frame f j := by
    by_cases hfe : f = e
    · subst hfe
      rw [Function.update_self, Function.update_of_ne fun hj => hfj ⟨rfl, hj⟩]
    · rw [Function.update_of_ne hfe, Function.update_of_ne hft]
  have hself : update (update frame t z) e (update (frame e) i w) e i = w := by
    rw [Function.update_self, Function.update_self]
  have hnew (j : Nat) : F.valid (update (update frame t z) e (update (frame e) i w) t j) = false := by
    rw [Function.update_of_ne het.symm, Function.update_self]
    exact hz j
  have hnode (f : Nat) (hf : role f ≠ .free) : update role t (.node d (p ++ [i])) f = role f := by
    apply Function.update_of_ne
    rintro rfl
    exact hf ht
  constructor
  · intro f c hf
    by_cases hft : f = t
    · subst hft
      rw [Function.update_self] at hf
      have := (Role.node.inj hf).2
      simp at this
    · rw [Function.update_of_ne hft] at hf
      exact h.root f c hf
  · intro f c q j hf hq hj hv
    by_cases hft : f = t
    · subst hft
      rw [hnew] at hv
      cases hv
    · rw [Function.update_of_ne hft] at hf
      by_cases hfj : f = e ∧ j = i
      · obtain ⟨rfl, rfl⟩ := hfj
        obtain ⟨rfl, rfl⟩ := Role.node.inj (he.symm.trans hf)
        rw [hself, hwt, Function.update_self]
      · rw [hold f hft j hfj] at hv ⊢
        have hc := h.child f c q j hf hq hj hv
        rw [hnode _ (by rw [hc]; simp), hc]
  · intro f c q j hf hq hj hv
    by_cases hft : f = t
    · subst hft
      rw [hnew] at hv
      cases hv
    · rw [Function.update_of_ne hft] at hf
      have hfj : ¬ (f = e ∧ j = i) := by
        rintro ⟨rfl, rfl⟩
        obtain ⟨-, rfl⟩ := Role.node.inj (he.symm.trans hf)
        omega
      rw [hold f hft j hfj] at hv ⊢
      have hc := h.leaf f c q j hf hq hj hv
      rw [hnode _ (by rw [hc]; simp), hc]
  · intro f c q j hf
    by_cases hft : f = t
    · subst hft
      rw [Function.update_self] at hf
      obtain ⟨rfl, hpq⟩ := Role.node.inj hf
      obtain ⟨rfl, hij⟩ := List.append_inj' hpq rfl
      cases hij
      refine ⟨hp, hi, e, ?_, ?_⟩
      · rw [hnode e (by rw [he]; simp), he]
      · rw [hself]
        exact ⟨hw, hwt⟩
    · rw [Function.update_of_ne hft] at hf
      obtain ⟨hl, hj, g, hg, hv, htg⟩ := h.parent f c q j hf
      refine ⟨hl, hj, g, ?_, ?_⟩
      · rw [hnode g (by rw [hg]; simp), hg]
      · have hgt : g ≠ t := by
          rintro rfl
          rw [hg] at ht
          cases ht
        have hgj : ¬ (g = e ∧ j = i) := by
          rintro ⟨rfl, rfl⟩
          rw [hnv] at hv
          cases hv
        rw [hold g hgt j hgj]
        exact ⟨hv, htg⟩

/-- The frame is in the tree of the root `d` from the path `p` on, as a table or as a leaf. -/
def Beneath (F : TableFmt E) (frame : Nat → Nat → E) (role : Nat → Role) (d : Nat) (p : List Nat) (g : Nat) : Prop :=
  (∃ q, role g = .node d (p ++ q)) ∨ ∃ e q i, role e = .node d (p ++ q) ∧ (p ++ q).length = F.depth ∧
    i < F.width (p ++ q).length ∧ F.valid (frame e i) ∧ F.target (frame e i) = g

theorem Beneath.table (h : Beneath F frame role d p g) (ht : Tables F frame role) (hg : role g = .node c q) :
    ∃ q', role g = .node d (p ++ q') := by
  rcases h with hq | ⟨e, q', i, he, hl, hi, hv, rfl⟩
  · exact hq
  · have hleaf := ht.leaf e d _ i he hl hi hv
    rw [hg] at hleaf
    cases hleaf

/-- Cut the tree of the root `d` at the path `p`: no entry leads there any more, and what is beneath is no table
and no leaf any more. Each leaf must be in one table only. -/
theorem cut (h : Tables F frame role)
    (hsole : ∀ e c q i e' c' q' i', role e = .node c q → q.length = F.depth → i < F.width q.length →
      F.valid (frame e i) → role e' = .node c' q' → q'.length = F.depth → i' < F.width q'.length →
      F.valid (frame e' i') → F.target (frame e i) = F.target (frame e' i') → e = e')
    (hkept : ∀ g c q i, role g = .node c q → i < F.width q.length →
      (F.valid (frame g i) → role (F.target (frame g i)) ≠ .node d p) → frame' g i = frame g i)
    (hclear : ∀ g c q i, role g = .node c q → i < F.width q.length → F.valid (frame g i) →
      role (F.target (frame g i)) = .node d p → F.valid (frame' g i) = false)
    (hgone : ∀ g, Beneath F frame role d p g → role' g = .free ∨ role' g = .other)
    (hrest : ∀ g, ¬ Beneath F frame role d p g → role' g = role g) : Tables F frame' role' := by
  have hnode (g c : Nat) (q : List Nat) (hg : role' g = .node c q) :
      role g = .node c q ∧ ¬ Beneath F frame role d p g := by
    by_cases hb : Beneath F frame role d p g
    · rcases hgone g hb with hr | hr <;> rw [hg] at hr <;> cases hr
    · exact ⟨hrest g hb ▸ hg, hb⟩
  -- an entry that is still valid was so before, and does not lead to what is cut
  have hval (g c : Nat) (q : List Nat) (i : Nat) (hg : role g = .node c q) (hi : i < F.width q.length)
      (hv : F.valid (frame' g i)) :
      frame' g i = frame g i ∧ F.valid (frame g i) ∧ role (F.target (frame g i)) ≠ .node d p := by
    by_cases hc : F.valid (frame g i) → role (F.target (frame g i)) ≠ .node d p
    · have he := hkept g c q i hg hi hc
      rw [he] at hv
      exact ⟨he, hv, hc hv⟩
    · obtain ⟨hv', hr⟩ := Classical.not_imp.1 hc
      rw [hclear g c q i hg hi hv' (not_not.1 hr)] at hv
      cases hv
  constructor
  · intro f c hf
    exact h.root f c (hnode f c [] hf).1
  · intro g c q i hg hq hi hv
    obtain ⟨hg, hb⟩ := hnode g c q hg
    obtain ⟨he, hv, hne⟩ := hval g c q i hg hi hv
    have hc := h.child g c q i hg hq hi hv
    rw [he, hrest, hc]
    intro hbt
    obtain ⟨q', hq'⟩ := hbt.table h hc
    obtain ⟨rfl, heq⟩ := Role.node.inj (hc.symm.trans hq')
    cases q' using List.reverseRecOn with
    | nil =>
      rw [List.append_nil] at hq'
      exact hne hq'
    | append_singleton q' j =>
      rw [← List.append_assoc] at heq
      obtain ⟨rfl, -⟩ := List.append_inj' heq rfl
      exact hb (.inl ⟨q', hg⟩)
  · intro g c q i hg hq hi hv
    obtain ⟨hg, hb⟩ := hnode g c q hg
    obtain ⟨he, hv, -⟩ := hval g c q i hg hi hv
    have hl := h.leaf g c q i hg hq hi hv
    rw [he, hrest, hl]
    rintro (⟨q', hq'⟩ | ⟨e, q', j, hre, hlen, hj, hve, ht⟩)
    · rw [hl] at hq'
      cases hq'
    · obtain rfl := hsole e d _ j g c q i hre hlen hj hve hg hq hi hv ht
      exact hb (.inl ⟨q', hre⟩)
  · intro f c q i hf
    obtain ⟨hf, hb⟩ := hnode f c _ hf
    obtain ⟨hq, hi, e, he, hv, ht⟩ := h.parent f c q i hf
    have hbe : ¬ Beneath F frame role d p e := by
      intro hbe
      obtain ⟨q', hq'⟩ := hbe.table h he
      obtain ⟨rfl, rfl⟩ := Role.node.inj (he.symm.trans hq')
      exact hb (.inl ⟨q' ++ [i], by rw [← List.append_assoc]; exact hf⟩)
    have hne : role (F.target (frame e i)) ≠ .node d p := by
      rw [ht]
      intro hr
      exact hb (.inl ⟨[], by rw [List.append_nil]; exact hr⟩)
    refine ⟨hq, hi, e, (hrest e hbe).trans he, ?_⟩
    rw [hkept e c q i he hi fun _ => hne]
    exact ⟨hv, ht⟩

/-- A free frame without entries becomes the root of a new tree. -/
theorem addRoot (h : Tables F frame role) (hd : role d = .free)
    (hz : ∀ j < F.width 0, F.valid (frame d j) = false) : Tables F frame (update role d (.node d [])) := by
  have hnode (f : Nat) (hf : role f ≠ .free) : update role d (.node d []) f = role f := by
    apply Function.update_of_ne
    rintro rfl
    exact hf hd
  have hold (f c : Nat) (p : List Nat) (hf : update role d (.node d []) f = .node c p) :
      f = d ∧ p = [] ∨ role f = .node c p := by
    by_cases hfd : f = d
    · subst hfd
      rw [Function.update_self] at hf
      exact .inl ⟨rfl, (Role.node.inj hf).2.symm⟩
    · rw [Function.update_of_ne hfd] at hf
      exact .inr hf
  constructor
  · intro f c hf
    cases hold f c [] hf with
    | inl hfd =>
      rw [hfd.1, Function.update_self] at hf
      exact hfd.1.trans (Role.node.inj hf).1
    | inr hf => exact h.root f c hf
  · intro f c p i hf hp hi hv
    cases hold f c p hf with
    | inl hfd =>
      obtain ⟨rfl, rfl⟩ := hfd
      rw [hz i hi] at hv
      cases hv
    | inr hf =>
      have hc := h.child f c p i hf hp hi hv
      rw [hnode _ (by rw [hc]; simp), hc]
  · intro f c p i hf hp hi hv
    cases hold f c p hf with
    | inl hfd =>
      obtain ⟨rfl, rfl⟩ := hfd
      rw [hz i hi] at hv
      cases hv
    | inr hf =>
      have hc := h.leaf f c p i hf hp hi hv
      rw [hnode _ (by rw [hc]; simp), hc]
  · intro f c p i hf
    cases hold f c (p ++ [i]) hf with
    | inl hfd => simp at hfd
    | inr hf =>
      obtain ⟨hl, hi, e, he, hv⟩ := h.parent f c p i hf
      exact ⟨hl, hi, e, (hnode e (by rw [he]; simp)).trans he, hv⟩

end Tables

end UCore
