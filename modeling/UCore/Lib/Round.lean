import Mathlib.Data.List.Nodup

namespace UCore
set_option autoImplicit true

/-- In the walk around the list `l` that starts behind `c`, the element `p` comes before `q`, or the walk
has just left `q`. -/
def Ahead (l : List α) (c p q : α) : Prop :=
  ∃ xs ys, l = xs ++ c :: ys ∧ (q = c ∨ [p, q].Sublist (ys ++ xs))

section
variable {l xs ys : List α} {c p q n : α}

theorem Ahead.start (h : q ∈ l) : Ahead l q p q := by
  obtain ⟨xs, ys, rfl⟩ := List.append_of_mem h
  exact ⟨xs, ys, rfl, .inl rfl⟩

theorem Ahead.cons (h : Ahead l c p q) (x : α) : Ahead (x :: l) c p q := by
  obtain ⟨xs, ys, rfl, h⟩ := h
  refine ⟨x :: xs, ys, rfl, h.imp_right fun hs => hs.trans ?_⟩
  exact (List.Sublist.refl ys).append (List.sublist_cons_self x xs)

theorem Ahead.erase {z : α} (h : Ahead (xs ++ z :: ys) c p q) (hnd : (xs ++ z :: ys).Nodup)
    (hc : z ≠ c) (hp : z ≠ p) (hq : z ≠ q) : Ahead (xs ++ ys) c p q := by
  classical
  obtain ⟨as, bs, hl, h⟩ := h
  have hfilter : (xs ++ z :: ys).filter (· ≠ z) = xs ++ ys := by
    have hz := (List.nodup_middle.1 hnd).notMem
    rw [List.mem_append, not_or] at hz
    rw [List.filter_append, List.filter_cons_of_neg (by simp), List.filter_eq_self.2,
      List.filter_eq_self.2]
    · intro a ha
      simpa using ne_of_mem_of_not_mem ha hz.2
    · intro a ha
      simpa using ne_of_mem_of_not_mem ha hz.1
  rw [← hfilter, hl, List.filter_append, List.filter_cons_of_pos (by simpa using hc.symm)]
  refine ⟨as.filter (· ≠ z), bs.filter (· ≠ z), rfl, h.imp_right fun hs => ?_⟩
  have hs' := hs.filter (· ≠ z)
  rwa [List.filter_append, List.filter_cons_of_pos (by simpa using hp.symm),
    List.filter_cons_of_pos (by simpa using hq.symm)] at hs'

/-- The walk behind `n`, when `n` comes after `u` in the walk behind `c`. -/
theorem walk_advance {u v : List α} (h : ys ++ xs = u ++ n :: v) :
    ∃ as bs, xs ++ c :: ys = as ++ n :: bs ∧ bs ++ as = v ++ c :: u := by
  rw [List.append_eq_append_iff] at h
  rcases h with ⟨w, rfl, rfl⟩ | ⟨w, rfl, hw⟩
  · exact ⟨w, v ++ c :: ys, by simp, by simp⟩
  · cases w with
    | nil =>
      obtain rfl : n :: v = xs := hw
      exact ⟨[], v ++ c :: u, by simp, by simp⟩
    | cons a w =>
      cases hw
      exact ⟨xs ++ c :: u, w, by simp, by simp⟩

theorem sublist_of_notMem {u v : List α} (h : [p, q].Sublist (u ++ v)) (hp : p ∉ u) :
    [p, q].Sublist v := by
  obtain ⟨as, bs, he, hu, hv⟩ := List.sublist_append_iff.1 h
  cases as with
  | nil => rwa [he]
  | cons a as =>
    obtain ⟨rfl, -⟩ := List.cons.inj he
    exact absurd (hu.subset (List.mem_cons_self ..)) hp

/-- The first element of a list with a property. -/
theorem exists_first {P : α → Prop} (hp : p ∈ l) (h : P p) :
    ∃ u n v, l = u ++ n :: v ∧ P n ∧ ∀ a ∈ u, ¬ P a := by
  induction l with
  | nil => cases hp
  | cons a l ih =>
    by_cases ha : P a
    · exact ⟨[], a, l, rfl, ha, by simp⟩
    · have hpl : p ∈ l := (List.mem_cons.1 hp).resolve_left fun he => ha (he ▸ h)
      obtain ⟨u, n, v, rfl, hn, hu⟩ := ih hpl
      refine ⟨a :: u, n, v, rfl, hn, fun b hb => ?_⟩
      cases hb with
      | head => exact ha
      | tail _ hb => exact hu b hb

/-- The walk goes on to the first element with a property that `p` has: it stops at `p`, or before it and
not at `q`. -/
theorem Ahead.advance {P : α → Prop} (h : Ahead l c p q) (hnd : l.Nodup) (hpl : p ∈ l) (hpc : p ≠ c)
    (hp : P p) : ∃ xs ys u n v, l = xs ++ c :: ys ∧ ys ++ xs = u ++ n :: v ∧ P n ∧ (∀ a ∈ u, ¬ P a) ∧
      (n ≠ p → n ≠ q ∧ Ahead l n p q) := by
  obtain ⟨xs, ys, rfl, hor⟩ := h
  have hw : p ∈ ys ++ xs := by
    simp only [List.mem_append, List.mem_cons] at hpl ⊢
    tauto
  have hnd' : (c :: (ys ++ xs)).Nodup := by
    rw [List.nodup_middle, List.nodup_cons, List.nodup_append_comm, List.mem_append, or_comm,
      ← List.mem_append, ← List.nodup_cons] at hnd
    exact hnd
  obtain ⟨u, n, v, huv, hn, hu⟩ := exists_first hw hp
  refine ⟨xs, ys, u, n, v, rfl, huv, hn, hu, fun hnp => ?_⟩
  rw [huv] at hnd' hw hor
  have hpu : p ∉ u ++ [n] := by
    rw [List.mem_append, List.mem_singleton, not_or]
    exact ⟨fun hm => hu p hm hp, hnp.symm⟩
  obtain ⟨as, bs, hl, hbs⟩ := walk_advance (c := c) huv
  have hcn : n ≠ c := by
    rintro rfl
    exact (List.nodup_cons.1 hnd').1 (by simp)
  rcases hor with rfl | hs
  · refine ⟨hcn, as, bs, hl, .inr ?_⟩
    have hpv : p ∈ v := by
      simp only [List.mem_append, List.mem_cons] at hw hpu
      tauto
    rw [hbs]
    exact (List.singleton_sublist.2 hpv).append (List.singleton_sublist.2 (List.mem_cons_self ..))
  · have hv : [p, q].Sublist v := by
      apply sublist_of_notMem _ hpu
      simpa using hs
    refine ⟨?_, as, bs, hl, .inr ?_⟩
    · rintro rfl
      have hnv := (List.nodup_cons.1 (List.nodup_append.1 (List.nodup_cons.1 hnd').2).2.1).1
      exact hnv (hv.subset (by simp))
    · rw [hbs]
      exact hv.trans (List.sublist_append_left ..)

end

end UCore
