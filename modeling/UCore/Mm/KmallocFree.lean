import UCore.Mm.KmallocLink

namespace UCore
set_option autoImplicit true

section Search
variable {h : SlobHeap} {b : Nat}

theorem slobFreeLoop_path (hl : (cur :: xs).map h.next = xs ++ [e])
    (hg : ∃ y ∈ cur :: xs, Gap y b (h.next y)) (hf : xs.length < fuel) :
    ∃ t ∈ cur :: xs, slobFreeLoop h b cur fuel = some t ∧ Gap t b (h.next t) := by
  induction xs generalizing cur fuel with
  | nil =>
    obtain ⟨y, hy, hg⟩ := hg
    obtain rfl := List.mem_singleton.1 hy
    obtain ⟨fuel, rfl⟩ := Nat.exists_eq_add_one.2 hf
    refine ⟨y, by simp, ?_, hg⟩
    rw [slobFreeLoop]
    split_ifs with h₁ h₂
    · rfl
    · rfl
    · exact absurd hg (not_or.2 ⟨h₁, h₂⟩)
  | cons x xs ih =>
    obtain ⟨hx, hxs⟩ : h.next cur = x ∧ (x :: xs).map h.next = xs ++ [e] := by simpa using hl
    obtain ⟨fuel, rfl⟩ := Nat.exists_eq_add_one.2 (Nat.zero_lt_of_lt hf)
    rw [slobFreeLoop]
    split_ifs with h₁ h₂
    · exact ⟨cur, by simp, rfl, .inl h₁⟩
    · exact ⟨cur, by simp, rfl, .inr h₂⟩
    · have hg' : ∃ y ∈ x :: xs, Gap y b (h.next y) := by
        obtain ⟨y, hy, hg⟩ := hg
        rcases List.mem_cons.1 hy with rfl | hy
        · exact absurd hg (not_or.2 ⟨h₁, h₂⟩)
        · exact ⟨y, hy, hg⟩
      obtain ⟨t, ht, he, hg⟩ := ih hxs hg' (Nat.lt_of_succ_lt_succ hf)
      exact ⟨t, List.mem_cons_of_mem _ ht, hx ▸ he, hg⟩

theorem exists_rotated_head {s : Nat} {L : List Nat} (hs : s ∈ L) : ∃ xs, L ~r s :: xs := by
  obtain ⟨l, r, rfl⟩ := List.append_of_mem hs
  exact ⟨r ++ l, rotated_append l (s :: r)⟩

/-- The search for the reinsertion point ends at a gap of the list. -/
theorem slobFreeLoop_spec {L : List Seg} (hr : SlobRing h L) (hs : h.slobfree ∈ L.map Seg.addr)
    (hb : b ∉ L.map Seg.addr) (hf : L.length ≤ fuel) :
    ∃ t ∈ L, slobFreeLoop h b h.slobfree fuel = some t.addr ∧ Gap t.addr b (h.next t.addr) := by
  obtain ⟨xs, hxs⟩ := exists_rotated_head hs
  have hne : L.map Seg.addr ≠ [] := List.ne_nil_of_mem hs
  obtain ⟨y, hy, hg⟩ := exists_gap hr.cycle hr.wrap hne hb
  have hlen : xs.length < fuel := by
    have := hxs.perm.length_eq
    simp only [List.length_map, List.length_cons] at this
    omega
  obtain ⟨t, ht, he, hg⟩ := slobFreeLoop_path (cycle_cons_iff.1 (hr.cycle.isRotated hxs))
    ⟨y, hxs.mem_iff.1 hy, hg⟩ hlen
  obtain ⟨t, htL, rfl⟩ := List.mem_map.1 (hxs.mem_iff.2 ht)
  exact ⟨t, htL, he, hg⟩

end Search

section SlobFree
variable {h : SlobHeap} {L used : List Seg} {b : Seg}

/-- What `slob_free` and `slob_alloc` leave alone: the big blocks and the runs in use. -/
structure SlobFrame (h h' : SlobHeap) (used : List Seg) : Prop where
  same : ∀ s ∈ used, SameOn s h h'
  arena : h'.arena = h.arena
  bigblocks : h'.bigblocks = h.bigblocks

theorem SlobFrame.trans (h₁ : SlobFrame h h' used) (h₂ : SlobFrame h' h'' used) :
    SlobFrame h h'' used where
  same := fun s hs => (h₁.same s hs).trans (h₂.same s hs)
  arena := h₂.arena.trans h₁.arena
  bigblocks := h₂.bigblocks.trans h₁.bigblocks

theorem slobLink_frame (h : SlobHeap) (b t w : Nat) (hb : w ≠ b ∧ w ≠ b + 8) (ht : w ≠ t ∧ w ≠ t + 8) :
    (slobLink h b t).mem w = h.mem w := by
  rw [slobLink]
  split_ifs <;>
  simp [SlobHeap.setNext, SlobHeap.setUnits, SlobHeap.setSlobfree, hb, ht]

@[simp] theorem slobLink_fields (h : SlobHeap) (b t : Nat) :
    (slobLink h b t).slobfree = t ∧ (slobLink h b t).arena = h.arena ∧
      (slobLink h b t).bigblocks = h.bigblocks ∧ (slobLink h b t).pages = h.pages := by
  rw [slobLink]
  split_ifs <;> simp [SlobHeap.setNext, SlobHeap.setUnits, SlobHeap.setSlobfree]

theorem InPages.apart {A : Seg} (hs : InPages pages s) (hs0 : 0 < s.units) (hd : s.Disjoint A)
    (hA : ∀ p ∈ pages, A.Apart (pageSeg p)) : s.Apart A := by
  rcases hd with hd | hd
  · obtain ⟨p, hp, h⟩ := hs (s.stop - 1) (by simp only [Seg.stop]; omega) (by simp only [Seg.stop]; omega)
    have := hA p hp
    simp only [Seg.Apart, Seg.stop, pageSeg] at *
    omega
  · obtain ⟨p, hp, h⟩ := hs s.addr le_rfl (by simp only [Seg.stop]; omega)
    have := hA p hp
    simp only [Seg.Apart, Seg.stop, pageSeg] at *
    omega

theorem SlobRep.length_le (hr : SlobRep h L used) : L.length ≤ 1 + 256 * h.pages.length := by
  have := length_le_totalUnits hr.tiling.pos
  have := hr.tiling.total
  simp only [List.length_append] at *
  omega

/-- A store that hits no header is invisible to the free list. -/
theorem SlobRep.store (hr : SlobRep h L used) (ha : ∀ x ∈ L, x.addr ≠ a ∧ x.addr + 8 ≠ a) :
    SlobRep (h.store a v) L used := by
  refine ⟨⟨?_, hr.wrap, ?_, hr.pos, hr.disjoint⟩, hr.apart, hr.start, hr.arena, hr.tiling, hr.pages⟩
  · refine (cycle_congr fun x hx => ?_).2 hr.cycle
    obtain ⟨y, hy, rfl⟩ := List.mem_map.1 hx
    exact Function.update_of_ne (ha y hy).2 ..
  · intro x hx
    rw [← hr.header x hx]
    exact Function.update_of_ne (ha x hx).1 ..

theorem SlobRep.store_used {s : Seg} (hr : SlobRep h L used) (hs : s ∈ used) (ha : s.addr ≤ a)
    (hs' : a < s.stop) : SlobRep (h.store a v) L used := by
  refine hr.store fun x hx => ?_
  have := (List.pairwise_append.1 hr.tiling.disjoint).2.2 x hx s hs
  have := hr.pos x hx
  simp only [Seg.Disjoint, Seg.stop] at *
  omega

theorem SlobRep.perm (hr : SlobRep h L used) (hp : used.Perm used') : SlobRep h L used' :=
  { hr with tiling := hr.tiling.perm (hp.append_left L) }

theorem SlobRep.setBigblocks (hr : SlobRep h L used) (bb : Nat) :
    SlobRep { h with bigblocks := bb } L used :=
  ⟨⟨hr.cycle, hr.wrap, hr.header, hr.pos, hr.disjoint⟩, hr.apart, hr.start, hr.arena, hr.tiling,
    hr.pages⟩

theorem SlobRep.addr_pos (hr : SlobRep h L used) (hs : s ∈ used) : 0 < s.addr := by
  have hd := (List.pairwise_append.1 hr.tiling.disjoint).2.2 _ hr.arena s hs
  have hs0 := hr.tiling.pos s (List.mem_append_right _ hs)
  have hne : s ≠ ⟨h.arena, 1⟩ := by
    rintro rfl
    simp only [Seg.Disjoint, Seg.stop] at hd
    omega
  obtain ⟨p, hp, hle, -⟩ := hr.tiling.covered s (List.mem_append_right _ hs) hne s.addr le_rfl
    (by simp only [Seg.stop]; omega)
  exact lt_of_lt_of_le (hr.pages p hp).1 hle

theorem slobFree_rep (hr : SlobRep h L (b :: used)) (hb : h.units b.addr = b.units) :
    ∃ h' L', slobFree h b.addr 0 = some h' ∧ SlobRep h' L' used ∧ SlobFrame h h' used ∧
      h'.pages = h.pages ∧ ∃ s ∈ L', b.units ≤ s.units := by
  have hb0 := hr.tiling.pos b (by simp)
  have hbL : ∀ x ∈ L, x.Disjoint b := fun x hx =>
    (List.pairwise_append.1 hr.tiling.disjoint).2.2 x hx b (by simp)
  have hbnot : b.addr ∉ L.map Seg.addr := fun hm => by
    obtain ⟨x, hx, he⟩ := List.mem_map.1 hm
    have := hbL x hx
    have := hr.pos x hx
    simp only [Seg.Disjoint, Seg.stop] at *
    omega
  have hfuel : L.length ≤ h.fuel := hr.length_le.trans (by simp only [SlobHeap.fuel]; omega)
  obtain ⟨t, ht, hloop, hg⟩ := slobFreeLoop_spec hr.toSlobRing hr.start hbnot hfuel
  obtain ⟨c, M, hrot, hlast, hring⟩ := hr.rotate_last ht
  have hperm := hrot.perm
  subst hlast
  have hbA : b.Apart ⟨h.arena, 1⟩ := by
    refine (hr.tiling.covered b (by simp) ?_).apart hb0 (hbL _ hr.arena).symm
      fun p hp => (hr.pages p hp).2
    rintro rfl
    exact hbnot (List.mem_map_of_mem (f := Seg.addr) hr.arena)
  have hT : Tiling ⟨h.arena, 1⟩ h.pages (b :: c :: M ++ used) := by
    refine hr.tiling.perm ?_
    exact List.perm_middle.trans ((hperm.append_right used).cons b)
  rw [hring.next_last] at hg
  obtain ⟨L', hring', hap, hstart, hA, hT', hbig⟩ := slobLink_freed hring
    ((hperm.pairwise_iff fun h => h.symm).1 hr.apart) hT (hperm.mem_iff.1 hr.arena) hbA hb hg
  obtain ⟨hf, har, hbb, hpg⟩ := slobLink_fields h b.addr (M.getLastD c).addr
  refine ⟨_, L', ?_, ⟨hring', hap, ?_, ?_, ?_, ?_⟩, ⟨?_, har, hbb⟩, hpg, hbig⟩
  · rw [slobFree, if_neg (hr.addr_pos (by simp)).ne']
    simp [hloop]
  · rwa [hf]
  · rwa [har]
  · rwa [har, hpg]
  · rw [har, hpg]
    exact hr.pages
  · intro s hs w hw hsw
    have hd := (List.pairwise_append.1 hr.tiling.disjoint).2.2 _ ht s (by simp [hs])
    have hd' := List.rel_of_pairwise_cons (List.pairwise_append.1 hr.tiling.disjoint).2.1 hs
    have ht0 := hr.pos _ ht
    refine slobLink_frame h _ _ w ?_ ?_
    all_goals
      simp only [Seg.Disjoint, Seg.stop] at *
      omega

theorem slobFree_size {b : Nat} (hb : b ≠ 0) (hs : size ≠ 0) :
    slobFree h b size = slobFree (h.setUnits b (slobUnits size)) b 0 := by
  simp [slobFree, hb, hs]

end SlobFree

end UCore
