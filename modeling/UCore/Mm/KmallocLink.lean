import UCore.Mm.KmallocSpec

namespace UCore
set_option autoImplicit true

namespace SlobHeap

/-- Put the block `b` behind `t`. -/
def linkIn (h : SlobHeap) (b t : Nat) : SlobHeap := (h.setNext b (h.next t)).setNext t b

/-- Let the block `x` swallow the block `y` behind it. -/
def absorb (h : SlobHeap) (x y : Nat) : SlobHeap :=
  (h.setUnits x (h.units x + h.units y)).setNext x (h.next y)

@[simp] theorem next_setSlobfree (h : SlobHeap) (b : Nat) : (h.setSlobfree b).next = h.next := rfl
@[simp] theorem units_setSlobfree (h : SlobHeap) (b : Nat) : (h.setSlobfree b).units = h.units := rfl

theorem next_linkIn (h : SlobHeap) (b t : Nat) :
    (h.linkIn b t).next = Function.update (Function.update h.next b (h.next t)) t b := by
  rw [linkIn, next_setNext, next_setNext]

theorem units_linkIn (h : SlobHeap) {x b t : Nat} (hb : x ≠ b + 8) (ht : x ≠ t + 8) :
    (h.linkIn b t).units x = h.units x := by
  rw [linkIn, units_setNext ht, units_setNext hb]

theorem next_absorb (h : SlobHeap) {x y z : Nat} (hz : z + 8 ≠ x) :
    (h.absorb x y).next z = Function.update h.next x (h.next y) z := by
  rw [absorb, next_setNext, Function.update_apply, Function.update_apply, next_setUnits hz]

theorem units_absorb (h : SlobHeap) {x y z : Nat} (hz : z ≠ x + 8) :
    (h.absorb x y).units z = Function.update h.units x (h.units x + h.units y) z := by
  rw [absorb, units_setNext hz, units_setUnits]

end SlobHeap

section Link
variable {h : SlobHeap} {b t : Nat}

open SlobHeap in
/-- `slob_free` links the block in and lets it and its predecessor swallow what they touch. -/
theorem slobLink_eq (hbt : b + 16 ≤ t ∨ t + 16 ≤ b)
    (hc : b + slobUnit * h.units b = h.next t →
      (h.next t + 16 ≤ b ∨ b + 16 ≤ h.next t) ∧ (h.next t + 16 ≤ t ∨ t + 16 ≤ h.next t)) :
    slobLink h b t =
      let h₁ := h.linkIn b t
      let h₂ := if b + slobUnit * h.units b = h.next t then h₁.absorb b (h.next t) else h₁
      let h₃ := if t + slobUnit * h.units t = b then h₂.absorb t b else h₂
      h₃.setSlobfree t := by
  have h1 : t ≠ b := by omega
  have h2 : t ≠ b + 8 := by omega
  have h3 : t + 8 ≠ b := by omega
  have h4 : b ≠ t + 8 := by omega
  have h5 : b + 8 ≠ t := by omega
  generalize hnx : h.next t = nx at *
  have hmem : h.mem (t + 8) = nx := hnx
  have hfresh : b + slobUnit * h.units b = nx →
      nx ≠ b ∧ nx ≠ b + 8 ∧ nx + 8 ≠ b ∧ nx ≠ t + 8 ∧ nx ≠ t := by omega
  rw [slobLink, hnx]
  split_ifs with hB <;>
  simp_all only [linkIn, absorb, setNext, setUnits, store, setSlobfree, SlobHeap.next,
    SlobHeap.units, Function.update_apply, ne_eq, not_false_eq_true, if_false, if_true,
    Nat.add_right_cancel_iff, not_true_eq_false, mk.injEq, and_true, forall_const]
  all_goals
    funext w
    simp only [Function.update_apply]
    split_ifs <;> first | rfl | omega

theorem slobLink_eq_seg {b t c : Seg} (hb : h.units b.addr = b.units) (ht : h.units t.addr = t.units)
    (hc : h.next t.addr = c.addr) (hbt : b.addr + 16 ≤ t.addr ∨ t.addr + 16 ≤ b.addr)
    (hfar : b.stop = c.addr → (c.addr + 16 ≤ b.addr ∨ b.addr + 16 ≤ c.addr) ∧
      (c.addr + 16 ≤ t.addr ∨ t.addr + 16 ≤ c.addr)) :
    slobLink h b.addr t.addr =
      let h₁ := h.linkIn b.addr t.addr
      let h₂ := if b.stop = c.addr then h₁.absorb b.addr c.addr else h₁
      let h₃ := if t.stop = b.addr then h₂.absorb t.addr b.addr else h₂
      h₃.setSlobfree t.addr := by
  rw [slobLink_eq hbt (by rw [hb, hc]; exact hfar), hb, ht, hc]
  rfl

end Link

namespace SlobRing
variable {H : SlobHeap} {c b x y : Seg} {M N : List Seg}

theorem next_last (h : SlobRing H (c :: M)) : H.next (M.getLastD c).addr = c.addr := by
  rw [← getLastD_map Seg.addr]
  exact h.cycle.next_last

theorem addr_inj (h : SlobRing H L) (hx : x ∈ L) (hy : y ∈ L) (hxy : x.addr = y.addr) : x = y :=
  List.inj_on_of_nodup_map h.nodup hx hy hxy

theorem linkIn (h : SlobRing H (c :: M)) (hb : H.units b.addr = b.units) (hb0 : 0 < b.units)
    (hd : ∀ x ∈ c :: M, b.Disjoint x) (hg : Gap (M.getLastD c).addr b.addr c.addr) :
    SlobRing (H.linkIn b.addr (M.getLastD c).addr) (b :: c :: M) := by
  have hmem := getLastD_mem c M
  have hne : ∀ x ∈ c :: M, b.addr + 16 ≤ x.addr ∨ x.addr + 16 ≤ b.addr := fun x hx => by
    have := hd x hx
    have := h.pos x hx
    simp only [Seg.Disjoint, Seg.stop] at *
    omega
  refine ⟨?_, ?_, ?_, ?_, List.pairwise_cons.2 ⟨hd, h.disjoint⟩⟩
  · rw [SlobHeap.next_linkIn, h.next_last, ← getLastD_map Seg.addr]
    refine h.cycle.insert ?_ h.nodup
    intro hm
    obtain ⟨x, hx, he⟩ : ∃ x ∈ c :: M, x.addr = b.addr := List.mem_map.1 hm
    have := hne x hx
    omega
  · refine h.wrap.insert ?_
    rwa [getLastD_map]
  · intro s hs
    have hsb : s = b ∨ b.addr + 16 ≤ s.addr ∨ s.addr + 16 ≤ b.addr :=
      (List.mem_cons.1 hs).imp id (hne s)
    have hst : s = M.getLastD c ∨ s.addr + 16 ≤ (M.getLastD c).addr ∨
        (M.getLastD c).addr + 16 ≤ s.addr := by
      rcases List.mem_cons.1 hs with rfl | hs
      · exact .inr (hne _ hmem)
      · by_cases he : s = M.getLastD c
        · exact .inl he
        · have hd := h.disjoint.forall hs hmem he
          have := h.pos s hs
          have := h.pos _ hmem
          simp only [Seg.Disjoint, Seg.stop] at hd
          omega
    rw [SlobHeap.units_linkIn]
    · rcases List.mem_cons.1 hs with rfl | hs
      · exact hb
      · exact h.header s hs
    · rcases hsb with rfl | hsb <;> omega
    · rcases hst with rfl | hst <;> omega
  · intro s hs
    rcases List.mem_cons.1 hs with rfl | hs
    · exact hb0
    · exact h.pos s hs

theorem absorb (h : SlobRing H (x :: y :: N)) (hxy : x.stop = y.addr) :
    SlobRing (H.absorb x.addr y.addr) (x.join y :: N) := by
  have hdx := List.pairwise_cons.1 h.disjoint
  have hdy := List.pairwise_cons.1 hdx.2
  have hfar : ∀ z ∈ N, x.addr + 16 ≤ z.addr ∨ z.addr + 16 ≤ x.addr := fun z hz => by
    have := hdx.1 z (by simp [hz])
    have := h.pos z (by simp [hz])
    have := h.pos x (by simp)
    simp only [Seg.Disjoint, Seg.stop] at *
    omega
  refine ⟨?_, ?_, ?_, ?_, List.pairwise_cons.2 ⟨?_, hdy.2⟩⟩
  · refine (cycle_congr ?_).2 (h.cycle.absorb h.nodup)
    intro z hz
    refine SlobHeap.next_absorb H ?_
    rcases List.mem_cons.1 hz with rfl | hz
    · simp [Seg.join]
    · obtain ⟨s, hs, rfl⟩ := List.mem_map.1 hz
      have := hfar s hs
      omega
  · exact h.wrap.erase_second
  · intro s hs
    rcases List.mem_cons.1 hs with rfl | hs
    · rw [SlobHeap.units_absorb H (by simp [Seg.join])]
      simp only [Seg.join, Function.update_self]
      rw [h.header x (by simp), h.header y (by simp)]
    · have hxs := hfar s hs
      rw [SlobHeap.units_absorb H (by omega), Function.update_of_ne (by omega)]
      exact h.header s (by simp [hs])
  · intro s hs
    rcases List.mem_cons.1 hs with rfl | hs
    · exact Nat.add_pos_left (h.pos x (by simp)) _
    · exact h.pos s (by simp [hs])
  · intro z hz
    exact (Seg.Disjoint.join (hdx.1 z (by simp [hz])).symm (hdy.1 z hz).symm hxy
      (h.pos z (by simp [hz]))).symm

theorem setSlobfree (h : SlobRing H L) (p : Nat) : SlobRing (H.setSlobfree p) L := ⟨h.1, h.2, h.3, h.4, h.5⟩

/-- Only the neighbours of its insertion point can touch a new block. -/
theorem gap_apart (h : SlobRing H (c :: M)) (ha : (c :: M).Pairwise Seg.Apart) (hb0 : 0 < b.units)
    (hd : ∀ x ∈ c :: M, b.Disjoint x) (hg : Gap (M.getLastD c).addr b.addr c.addr)
    (hx : x ∈ c :: M) : b.Apart x ∨ (x = c ∧ b.stop = c.addr) ∨
      (x = M.getLastD c ∧ x.stop = b.addr) := by
  have hmem := getLastD_mem c M
  have hbet := h.wrap.between (x := x.addr) (List.mem_map_of_mem (f := Seg.addr) hx)
  rw [getLastD_map] at hbet
  generalize M.getLastD c = t at *
  have far : ∀ y ∈ c :: M, x = y ∨ x.Apart y := fun y hy => by
    by_cases he : x = y
    · exact .inl he
    · exact .inr (ha.forall hx hy he)
  have hxb := hd x hx
  have hx0 := h.pos x hx
  have hc0 := h.pos c (by simp)
  have ht0 := h.pos t hmem
  have hcb := hd c (by simp)
  have htb := hd t hmem
  rcases far c (by simp) with rfl | hxc <;> rcases far t hmem with rfl | hxt
  all_goals
    simp only [Seg.Apart, Seg.Disjoint, Seg.stop, Gap, true_and] at *
    omega

end SlobRing

/-- The free blocks after `b` was given back: none touch, and the block at `t` is among them. -/
def SlobFreed (H : SlobHeap) (A : Seg) (ps : List Nat) (used : List Seg) (t : Nat) (b : Seg) : Prop :=
  ∃ L, SlobRing H L ∧ L.Pairwise Seg.Apart ∧ t ∈ L.map Seg.addr ∧ A ∈ L ∧
    Tiling A ps (L ++ used) ∧ ∃ s ∈ L, b.units ≤ s.units

section Freed
variable {H : SlobHeap} {A b c t : Seg} {M used : List Seg}

/-- The merge with the predecessor. -/
theorem slobFreed_prev (mid : List Seg) (h : SlobRing H (b :: mid ++ [t])) (ha : (mid ++ [t]).Pairwise Seg.Apart)
    (hmid : ∀ x ∈ mid, b.Apart x) (ht : t.stop ≠ b.addr → b.Apart t)
    (hT : Tiling A ps (b :: mid ++ [t] ++ used)) (hA : A ∈ mid ++ [t]) (hbA : b.Apart A) :
    SlobFreed (if t.stop = b.addr then H.absorb t.addr b.addr else H) A ps used t.addr b := by
  obtain ⟨hmm, -, hmt⟩ := List.pairwise_append.1 ha
  split_ifs with htb
  · have hr : b :: mid ++ [t] ~r t :: b :: mid := by
      simpa using rotated_append (b :: mid) [t]
    have htA : t ≠ A := by
      rintro rfl
      simp only [Seg.Apart] at hbA
      have := h.pos b (by simp)
      have := h.pos t (by simp)
      simp only [Seg.stop] at *
      omega
    have hbA' : b ≠ A := by
      rintro rfl
      simp only [Seg.Apart, Seg.stop] at hbA
      omega
    have hT' : Tiling A ps (t.join b :: (mid ++ used)) := by
      refine Tiling.join (hT.perm ?_) htb htA hbA'
      exact (hr.perm.append_right used)
    refine ⟨t.join b :: mid, (h.isRotated hr).absorb htb, ?_, by simp [Seg.join], ?_, hT', ?_⟩
    · refine List.pairwise_cons.2 ⟨fun x hx => ?_, hmm⟩
      exact (Seg.Apart.join (hmt x hx t (by simp)) (hmid x hx).symm htb (h.pos x (by simp [hx]))).symm
    · rcases List.mem_append.1 hA with hA | hA
      · exact List.mem_cons_of_mem _ hA
      · exact absurd (List.mem_singleton.1 hA).symm htA
    · exact ⟨t.join b, by simp, Nat.le_add_left ..⟩
  · refine ⟨b :: mid ++ [t], h, ?_, by simp, ?_, hT, b, by simp, le_rfl⟩
    · refine List.pairwise_cons.2 ⟨fun x hx => ?_, ha⟩
      rcases List.mem_append.1 hx with hx | hx
      · exact hmid x hx
      · exact List.mem_singleton.1 hx ▸ ht htb
    · exact List.mem_cons_of_mem _ hA

theorem SlobFreed.mono (h : SlobFreed H A ps used a b) (hb : b'.units ≤ b.units) :
    SlobFreed H A ps used a b' := by
  obtain ⟨L, h₁, h₂, h₃, h₄, h₅, s, hs, hle⟩ := h
  exact ⟨L, h₁, h₂, h₃, h₄, h₅, s, hs, hb.trans hle⟩

theorem SlobFreed.setSlobfree (h : SlobFreed H A ps used a b) (p : Nat) :
    SlobFreed (H.setSlobfree p) A ps used a b := by
  obtain ⟨L, hr, h⟩ := h
  exact ⟨L, hr.setSlobfree p, h⟩

theorem slobLink_freed (h : SlobRing H (c :: M)) (ha : (c :: M).Pairwise Seg.Apart)
    (hT : Tiling A ps (b :: c :: M ++ used)) (hA : A ∈ c :: M) (hbA : b.Apart A)
    (hb : H.units b.addr = b.units) (hg : Gap (M.getLastD c).addr b.addr c.addr) :
    SlobFreed (slobLink H b.addr (M.getLastD c).addr) A ps used (M.getLastD c).addr b := by
  have hb0 : 0 < b.units := hT.pos b (by simp)
  have hd : ∀ x ∈ c :: M, b.Disjoint x := fun x hx =>
    List.rel_of_pairwise_cons hT.disjoint (List.mem_append_left _ hx)
  have htouch := fun x hx => h.gap_apart ha hb0 hd hg (x := x) hx
  have hring := h.linkIn hb hb0 hd hg
  have hmem := getLastD_mem c M
  have hAc : b.stop = c.addr → c ≠ A := by
    rintro h rfl
    simp only [Seg.Apart] at hbA
    have := hring.pos c (by simp)
    simp only [Seg.stop] at *
    omega
  have hne : ∀ x ∈ c :: M, x.addr + 16 ≤ b.addr ∨ b.addr + 16 ≤ x.addr := fun x hx => by
    have := hd x hx
    have := h.pos x hx
    simp only [Seg.Disjoint, Seg.stop] at *
    omega
  have hlast := h.next_last
  have ht := h.header _ hmem
  rcases M.eq_nil_or_concat with rfl | ⟨mid, t, rfl⟩
  · obtain rfl : A = c := by simpa using hA
    have hbc : b.stop ≠ A.addr := fun he => hAc he rfl
    rw [List.getLastD_nil] at *
    rw [slobLink_eq_seg hb ht hlast (hne _ hmem).symm fun he => absurd he hbc]
    simp only [if_neg hbc]
    exact SlobFreed.setSlobfree (slobFreed_prev [] hring ha (by simp) (fun _ => hbA) hT hA hbA) _
  · rw [List.concat_eq_append] at *
    simp only [List.getLastD_concat] at *
    have hct : c.addr + 16 ≤ t.addr ∨ t.addr + 16 ≤ c.addr := by
      have := List.rel_of_pairwise_cons ha (show t ∈ mid ++ [t] by simp)
      have := h.pos c (by simp)
      have := h.pos t hmem
      simp only [Seg.Apart, Seg.stop] at *
      omega
    rw [slobLink_eq_seg hb ht hlast (hne _ hmem).symm fun _ => ⟨hne c (by simp), hct⟩]
    have hmid : ∀ x ∈ mid, c.Apart x ∧ t.Apart x ∧ b.Apart x := fun x hx => by
      have hcx := List.rel_of_pairwise_cons ha (List.mem_append_left [t] hx)
      have hxt := (List.pairwise_append.1 ha.tail).2.2 x hx t (by simp)
      refine ⟨hcx, hxt.symm, ?_⟩
      rcases htouch x (by simp [hx]) with h | ⟨rfl, -⟩ | ⟨rfl, -⟩
      · exact h
      · exact absurd rfl hcx.ne
      · exact absurd rfl hxt.ne
    have hct' : c.Apart t := List.rel_of_pairwise_cons ha (by simp)
    have hbt : t.stop ≠ b.addr → b.Apart t := fun hn => by
      rcases htouch t hmem with h | ⟨he, -⟩ | ⟨-, h⟩
      · exact h
      · exact absurd he.symm hct'.ne
      · exact absurd h hn
    by_cases hbc : b.stop = c.addr
    · have hcA := hAc hbc
      have hA' : A ∈ mid ++ [t] := (List.mem_cons.1 hA).resolve_left fun h => hcA h.symm
      have join_apart : ∀ x, x ∈ mid ++ [t] → b.Apart x → (b.join c).Apart x := fun x hx hbx =>
        (Seg.Apart.join hbx.symm (List.rel_of_pairwise_cons ha hx).symm hbc
          (h.pos x (List.mem_cons_of_mem _ hx))).symm
      have hT' : Tiling A ps (b.join c :: mid ++ [t] ++ used) := hT.join hbc hbA.ne hcA
      simp only [if_pos hbc]
      refine SlobFreed.setSlobfree (SlobFreed.mono (b := b.join c) ?_ (Nat.le_add_right ..)) _
      refine slobFreed_prev mid (hring.absorb hbc) ha.tail ?_ ?_ hT' hA'
        (join_apart A hA' hbA)
      · exact fun x hx => join_apart x (List.mem_append_left _ hx) (hmid x hx).2.2
      · exact fun hn => join_apart t (by simp) (hbt hn)
    · have hbc' : b.Apart c := by
        rcases htouch c (by simp) with h | ⟨-, h⟩ | ⟨he, -⟩
        · exact h
        · exact absurd h hbc
        · exact absurd he hct'.ne
      simp only [if_neg hbc]
      refine SlobFreed.setSlobfree (slobFreed_prev (c :: mid) hring ha ?_ hbt hT hA hbA) _
      intro x hx
      rcases List.mem_cons.1 hx with rfl | hx
      · exact hbc'
      · exact (hmid x hx).2.2

end Freed

end UCore
