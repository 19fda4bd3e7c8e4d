import Mathlib.Algebra.Order.Ring.Nat
import Mathlib.Data.List.Rotate
import Mathlib.Order.Basic

namespace UCore
set_option autoImplicit true

/-- The nodes `L`, in this order, are one turn of the circular list linked by `next`. -/
def Cycle (next : ν → ν) (L : List ν) : Prop := L.map next = L.rotate 1

theorem Cycle.rotate (h : Cycle next L) (n : Nat) : Cycle next (L.rotate n) := by
  rw [Cycle, List.map_rotate, h, List.rotate_rotate, List.rotate_rotate, Nat.add_comm]

theorem Cycle.isRotated (h : Cycle next L) (hr : L ~r S) : Cycle next S := by
  obtain ⟨n, rfl⟩ := hr
  exact h.rotate n

theorem cycle_congr (h : ∀ x ∈ L, next' x = next x) : Cycle next' L ↔ Cycle next L := by
  rw [Cycle, List.map_congr_left h, Cycle]

theorem cycle_cons_iff : Cycle next (c :: xs) ↔ (c :: xs).map next = xs ++ [c] := by
  rw [Cycle, List.rotate_cons_succ, List.rotate_zero]

/-- A cycle cut open before its last node `t`. -/
theorem cycle_concat_iff :
    Cycle next (c :: xs ++ [t]) ↔ (c :: xs).map next = xs ++ [t] ∧ next t = c := by
  rw [List.cons_append, cycle_cons_iff]
  simp only [List.map_cons, List.map_append, List.map_nil, ← List.cons_append]
  constructor
  · intro h
    exact ⟨(List.append_inj' h rfl).1, by simpa using (List.append_inj' h rfl).2⟩
  · rintro ⟨h, rfl⟩
    rw [h]

theorem rotated_append (l r : List ν) : l ++ r ~r r ++ l := List.isRotated_append

theorem getLastD_mem (c : ν) (M : List ν) : M.getLastD c ∈ c :: M := by
  rcases M.eq_nil_or_concat with rfl | ⟨M, t, rfl⟩ <;> simp

theorem Cycle.next_last (h : Cycle next (c :: M)) : next (M.getLastD c) = c := by
  rcases M.eq_nil_or_concat with rfl | ⟨mid, t, rfl⟩
  · simpa [cycle_cons_iff] using h
  · simp only [List.concat_eq_append, List.getLastD_concat] at h ⊢
    rw [← List.cons_append, cycle_concat_iff] at h
    exact h.2

theorem getLastD_map (f : ν → μ) (c : ν) (M : List ν) :
    (M.map f).getLastD (f c) = f (M.getLastD c) := by
  rcases M.eq_nil_or_concat with rfl | ⟨mid, t, rfl⟩ <;> simp

section Links
variable {ν : Type} [DecidableEq ν] {next : ν → ν}

/-- Link the new node `b` in behind the last node. -/
theorem Cycle.insert (h : Cycle next (c :: M)) (hb : b ∉ c :: M) (hn : (c :: M).Nodup) :
    Cycle (Function.update (Function.update next b c) (M.getLastD c) b) (b :: c :: M) := by
  have hbt : M.getLastD c ≠ b := fun he => hb (he ▸ getLastD_mem c M)
  rcases M.eq_nil_or_concat with rfl | ⟨mid, t, rfl⟩
  · simp only [List.getLastD_nil] at hbt ⊢
    simp [cycle_cons_iff, hbt.symm]
  · simp only [List.concat_eq_append, List.getLastD_concat] at hbt hb hn h ⊢
    obtain ⟨hl, -⟩ := cycle_concat_iff.1 h
    rw [← List.cons_append, ← List.cons_append, cycle_concat_iff]
    refine ⟨?_, Function.update_self ..⟩
    rw [List.map_cons, Function.update_of_ne hbt.symm, Function.update_self, List.cons_append, ← hl]
    congr 1
    refine List.map_congr_left fun x hx => ?_
    rw [← List.cons_append] at hb hn
    have hxt : x ≠ t := fun he => (List.nodup_append.1 hn).2.2 x hx t (by simp) he
    have hxb : x ≠ b := fun he => hb (List.mem_append_left _ (he ▸ hx))
    rw [Function.update_of_ne hxt, Function.update_of_ne hxb]

/-- Unlink the node `y` behind `x`. -/
theorem Cycle.absorb (h : Cycle next (x :: y :: N)) (hn : (x :: y :: N).Nodup) :
    Cycle (Function.update next x (next y)) (x :: N) := by
  have hlink := cycle_cons_iff.1 h
  rw [List.map_cons, List.cons_append, List.cons.injEq] at hlink
  have hmap : N.map (Function.update next x (next y)) = N.map next :=
    List.map_congr_left fun z hz => Function.update_of_ne (by rintro rfl; simp_all) ..
  rw [cycle_cons_iff, List.map_cons, Function.update_self, hmap, ← hlink.2, List.map_cons]

/-- Put the node `z` in the place of `c`. -/
theorem Cycle.replace (h : Cycle next (c :: mid ++ [t])) (hz : z ∉ mid ++ [t])
    (hn : (mid ++ [t]).Nodup) :
    Cycle (Function.update (Function.update next t z) z (next c)) (z :: mid ++ [t]) := by
  obtain ⟨hl, -⟩ := cycle_concat_iff.1 h
  have htz : t ≠ z := by rintro rfl; simp at hz
  have hmid : mid.map (Function.update (Function.update next t z) z (next c)) = mid.map next := by
    refine List.map_congr_left fun x hx => ?_
    have hxz : x ≠ z := by rintro rfl; simp [hx] at hz
    have hxt : x ≠ t := (List.nodup_append.1 hn).2.2 x hx t (by simp)
    rw [Function.update_of_ne hxz, Function.update_of_ne hxt]
  rw [cycle_concat_iff, List.map_cons, Function.update_self, hmid, Function.update_of_ne htz,
    Function.update_self]
  exact ⟨hl, rfl⟩

/-- Unlink the node `c` behind the last node. -/
theorem Cycle.remove (h : Cycle next (c :: mid ++ [t])) (hn : (mid ++ [t]).Nodup) :
    Cycle (Function.update next t (next c)) (mid ++ [t]) := by
  obtain ⟨hl, -⟩ := cycle_concat_iff.1 h
  have hmid : mid.map (Function.update next t (next c)) = mid.map next :=
    List.map_congr_left fun x hx =>
      Function.update_of_ne ((List.nodup_append.1 hn).2.2 x hx t (by simp)) ..
  cases mid with
  | nil => simpa [Cycle] using hl
  | cons m mid =>
    obtain ⟨hm, hl⟩ : next c = m ∧ (m :: mid).map next = mid ++ [t] := by simpa using hl
    rw [cycle_concat_iff, hmid, Function.update_self]
    exact ⟨hl, hm⟩

end Links

section Order
variable {α : Type} [LinearOrder α] {next : α → α} {L S M xs hi lo : List α} {a b c e x : α}

/-- Read around the circle, the nodes increase except for one wrap. -/
def OneWrap (L : List α) : Prop := ∃ S : List α, S.Pairwise (· < ·) ∧ L ~r S

/-- The insertion point of `b` lies between the neighbours `t` and `c` of a circular list. -/
def Gap (t b c : α) : Prop := (t < b ∧ b < c) ∨ (c ≤ t ∧ (t < b ∨ b < c))

theorem OneWrap.isRotated (h : OneWrap L) (hr : L ~r S) : OneWrap S := by
  obtain ⟨T, hT, hLT⟩ := h
  exact ⟨T, hT, hr.symm.trans hLT⟩

theorem OneWrap.cut (h : OneWrap L) : ∃ hi lo, L = hi ++ lo ∧ (lo ++ hi).Pairwise (· < ·) := by
  obtain ⟨S, hS, n, rfl⟩ := h
  rw [List.rotate_eq_drop_append_take_mod] at hS
  exact ⟨_, _, (List.take_append_drop _ L).symm, hS⟩

theorem OneWrap.of_cut (h : (lo ++ hi).Pairwise (· < ·)) : OneWrap (hi ++ lo) :=
  ⟨lo ++ hi, h, List.isRotated_append⟩

theorem OneWrap.tail (h : OneWrap (x :: xs)) : OneWrap xs := by
  obtain ⟨hi, lo, he, hs⟩ := h.cut
  cases hi with
  | nil =>
    obtain rfl : lo = x :: xs := by simpa using he.symm
    rw [List.append_nil] at hs
    exact ⟨xs, hs.tail, .refl _⟩
  | cons y hi =>
    obtain ⟨rfl, rfl⟩ : x = y ∧ xs = hi ++ lo := by simpa using he
    exact .of_cut (hs.sublist ((List.Sublist.refl lo).append (List.sublist_cons_self _ _)))

theorem OneWrap.erase_second (h : OneWrap (a :: b :: L)) : OneWrap (a :: L) := by
  have hr : OneWrap (b :: (L ++ [a])) := h.isRotated ⟨1, by simp⟩
  exact hr.tail.isRotated (rotated_append L [a])

/-- The two shapes of a circular list cut open: sorted as it stands, or with the wrap inside. -/
theorem OneWrap.shape (h : OneWrap (c :: M)) : (c :: M).Pairwise (· < ·) ∨
    ∃ hi lo, M = hi ++ lo ++ [M.getLastD c] ∧ (lo ++ M.getLastD c :: c :: hi).Pairwise (· < ·) := by
  obtain ⟨hi, lo, he, hs⟩ := h.cut
  cases hi with
  | nil =>
    obtain rfl : lo = c :: M := by simpa using he.symm
    exact .inl (by simpa using hs)
  | cons y hi =>
    obtain ⟨rfl, rfl⟩ : c = y ∧ M = hi ++ lo := by simpa using he
    rcases lo.eq_nil_or_concat with rfl | ⟨lo, t, rfl⟩
    · exact .inl (by simpa using hs)
    · exact .inr ⟨hi, lo, by simp, by simpa using hs⟩

theorem sorted_le_getLastD (h : (c :: M).Pairwise (· < ·)) (hx : x ∈ c :: M) :
    c ≤ x ∧ x ≤ M.getLastD c := by
  constructor
  · rcases List.mem_cons.1 hx with rfl | hx
    · exact le_rfl
    · exact (List.rel_of_pairwise_cons h hx).le
  · rcases M.eq_nil_or_concat with rfl | ⟨M, t, rfl⟩
    · simp_all
    · rw [List.concat_eq_append] at *
      rw [← List.cons_append, List.mem_append, List.mem_singleton] at hx
      rw [List.getLastD_concat]
      rcases hx with hx | rfl
      · rw [← List.cons_append] at h
        exact ((List.pairwise_append.1 h).2.2 _ hx _ (by simp)).le
      · exact le_rfl

/-- No node of the list lies between its last node and its first. -/
theorem OneWrap.between (h : OneWrap (c :: M)) (hx : x ∈ c :: M) :
    (c ≤ x ∧ x ≤ M.getLastD c) ∨ (M.getLastD c < c ∧ (x ≤ M.getLastD c ∨ c ≤ x)) := by
  rcases h.shape with hs | ⟨hi, lo, he, hs⟩
  · exact .inl (sorted_le_getLastD hs hx)
  · generalize M.getLastD c = t at he hs ⊢
    subst he
    obtain ⟨-, hr, hlo⟩ := List.pairwise_append.1 hs
    have htc : t < c := List.rel_of_pairwise_cons hr (by simp)
    refine .inr ⟨htc, ?_⟩
    simp only [List.mem_cons, List.mem_append, List.not_mem_nil, or_false] at hx
    rcases hx with rfl | (hx | hx) | rfl
    · exact .inr le_rfl
    · exact .inr (List.rel_of_pairwise_cons hr.tail hx).le
    · exact .inl (hlo _ hx _ (by simp)).le
    · exact .inl le_rfl

theorem OneWrap.insert (h : OneWrap (c :: M)) (hg : Gap (M.getLastD c) b c) :
    OneWrap (b :: c :: M) := by
  rcases h.shape with hs | ⟨hi, lo, he, hs⟩
  · have hct : c ≤ M.getLastD c := (sorted_le_getLastD hs (List.mem_cons_self ..)).2
    have hg' : M.getLastD c < b ∨ b < c := by
      rcases hg with ⟨h1, h2⟩ | ⟨-, h⟩
      · exact .inl h1
      · exact h
    rcases hg' with hg | hg
    · refine OneWrap.isRotated ⟨c :: M ++ [b], ?_, .refl _⟩ ⟨M.length + 1, ?_⟩
      · refine List.pairwise_append.2 ⟨hs, List.pairwise_singleton .., fun x hx y hy => ?_⟩
        obtain rfl := List.mem_singleton.1 hy
        exact (sorted_le_getLastD hs hx).2.trans_lt hg
      · exact List.rotate_append_length_eq (c :: M) [b]
    · exact ⟨_, List.pairwise_cons.2
        ⟨fun x hx => hg.trans_le (sorted_le_getLastD hs hx).1, hs⟩, .refl _⟩
  · generalize M.getLastD c = t at he hs hg
    subst he
    obtain ⟨hl, hr, hlo⟩ := List.pairwise_append.1 hs
    have htc : t < c := List.rel_of_pairwise_cons hr (by simp)
    have hg' : t < b ∧ b < c := by
      rcases hg with hg | ⟨h, -⟩
      · exact hg
      · exact absurd htc h.not_gt
    have hs' : ((lo ++ [t]) ++ (b :: c :: hi)).Pairwise (· < ·) := by
      refine List.pairwise_append.2 ⟨?_, ?_, ?_⟩
      · exact hs.sublist (by simp)
      · refine List.pairwise_cons.2 ⟨fun x hx => ?_, hr.tail⟩
        rcases List.mem_cons.1 hx with rfl | hx
        · exact hg'.2
        · exact hg'.2.trans (List.rel_of_pairwise_cons hr.tail hx)
      · have hxt : ∀ x ∈ lo ++ [t], x ≤ t := fun x hx => by
          rcases List.mem_append.1 hx with hx | hx
          · exact (hlo _ hx _ (by simp)).le
          · exact (List.mem_singleton.1 hx).le
        intro x hx y hy
        rcases List.mem_cons.1 hy with rfl | hy
        · exact (hxt x hx).trans_lt hg'.1
        · exact (hxt x hx).trans_lt (List.rel_of_pairwise_cons hr hy)
    have hw := OneWrap.of_cut hs'
    simpa using hw

/-- A node in the gap behind `c` can take its place. -/
theorem OneWrap.replace {z d : α} (h : OneWrap (c :: d :: M)) (hg : Gap c z d) :
    OneWrap (z :: d :: M) := by
  have hr : OneWrap (d :: (M ++ [c])) := h.isRotated ⟨1, by simp⟩
  have hi : OneWrap (z :: d :: (M ++ [c])) := hr.insert (by rwa [List.getLastD_concat])
  exact (hi.isRotated (rotated_append (z :: d :: M) [c])).tail

theorem exists_gap_path (h : (a :: xs).map next = xs ++ [e]) (hab : a < b) (hb : b ∉ xs) :
    ∃ y ∈ a :: xs, y < b ∧ (b < next y ∨ next y = e) := by
  induction xs generalizing a with
  | nil => exact ⟨a, by simp, hab, .inr (by simpa using h)⟩
  | cons x xs ih =>
    obtain ⟨hx, hxs⟩ : next a = x ∧ (x :: xs).map next = xs ++ [e] := by simpa using h
    simp only [List.mem_cons, not_or] at hb
    rcases lt_trichotomy b x with hbx | rfl | hbx
    · exact ⟨a, by simp, hab, .inl (hx ▸ hbx)⟩
    · exact absurd rfl hb.1
    · obtain ⟨y, hy, h⟩ := ih hxs hbx hb.2
      exact ⟨y, List.mem_cons_of_mem _ hy, h⟩

/-- Every node outside the list has an insertion point. -/
theorem exists_gap (hc : Cycle next L) (hw : OneWrap L) (hL : L ≠ []) (hb : b ∉ L) :
    ∃ y ∈ L, Gap y b (next y) := by
  obtain ⟨S, hS, hr⟩ := hw
  have hcS := hc.isRotated hr
  have hbS : b ∉ S := fun h => hb (hr.mem_iff.2 h)
  suffices hg : ∃ y ∈ S, Gap y b (next y) by
    obtain ⟨y, hy, hg⟩ := hg
    exact ⟨y, hr.mem_iff.2 hy, hg⟩
  cases S with
  | nil => exact absurd (List.isRotated_nil_iff.1 hr) hL
  | cons m M =>
    have hmin : ∀ x ∈ m :: M, m ≤ x := fun x hx => (sorted_le_getLastD hS hx).1
    have hlink := cycle_cons_iff.1 hcS
    simp only [List.mem_cons, not_or] at hbS
    rcases lt_or_gt_of_ne hbS.1 with hbm | hmb
    · have hm : m ∈ (m :: M).map next := by rw [hlink]; simp
      obtain ⟨y, hy, hny⟩ := List.mem_map.1 hm
      exact ⟨y, hy, .inr ⟨hny ▸ hmin y hy, .inr (hny ▸ hbm)⟩⟩
    · obtain ⟨y, hy, hyb, hny | hny⟩ := exists_gap_path hlink hmb hbS.2
      · exact ⟨y, hy, .inl ⟨hyb, hny⟩⟩
      · exact ⟨y, hy, .inr ⟨hny ▸ hmin y hy, .inl hyb⟩⟩

end Order

end UCore
