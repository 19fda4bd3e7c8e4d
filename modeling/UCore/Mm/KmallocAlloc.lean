import UCore.Mm.KmallocFree

namespace UCore
set_option autoImplicit true

namespace SlobHeap

/-- Cut `n` units off the block `c` behind `t`: the rest takes its place in the list. -/
def carve (h : SlobHeap) (t c n : Nat) : SlobHeap :=
  let nx := c + slobUnit * n
  let h := h.setNext t nx
  let h := h.setUnits nx (h.units c - n)
  let h := h.setNext nx (h.next c)
  h.setUnits c n

theorem next_carve (h : SlobHeap) {t c n x : Nat} (htc : t + 16 ≤ c ∨ c + 16 ≤ t) (hn : 0 < n)
    (hx : x + 8 ≠ c ∧ x + 8 ≠ c + 16 * n) : (h.carve t c n).next x =
      Function.update (Function.update h.next t (c + 16 * n)) (c + 16 * n) (h.next c) x := by
  have hct : c ≠ t := by omega
  have hcd : c + 8 ≠ c + 16 * n := by omega
  simp only [carve, slobUnit, next_setUnits hx.1, next_setNext, next_setUnits hcd,
    Function.update_apply, next_setUnits hx.2, if_neg hct]

theorem units_carve (h : SlobHeap) {t c n x : Nat} (htc : t + 16 ≤ c ∨ c + 16 ≤ t)
    (hx : x ≠ t + 8 ∧ x ≠ c + 16 * n + 8) : (h.carve t c n).units x =
      Function.update (Function.update h.units (c + 16 * n) (h.units c - n)) c n x := by
  have hc : c ≠ t + 8 := by omega
  simp only [carve, slobUnit, units_setUnits, Function.update_apply, units_setNext hx.2,
    units_setNext hx.1, units_setNext hc]

end SlobHeap

/-- Without an alignment, `slob_alloc` unlinks an exact fit and carves a larger block. -/
theorem slobTake_zero (h : SlobHeap) (units prev cur : Nat) :
    slobTake h units 0 prev cur = (cur, (if h.units cur = units then h.setNext prev (h.next cur)
      else h.carve prev cur units).setSlobfree prev) := rfl

theorem slobTake_frame (h : SlobHeap) (hw : w ≠ prev + 8) (hc : h.units cur ≠ units →
    w ≠ cur ∧ w ≠ cur + slobUnit * units ∧ w ≠ cur + slobUnit * units + 8) :
    (slobTake h units 0 prev cur).2.mem w = h.mem w := by
  rw [slobTake_zero]
  split_ifs with he
  · simp [SlobHeap.setNext, SlobHeap.setSlobfree, hw]
  · obtain ⟨h₁, h₂, h₃⟩ := hc he
    simp [SlobHeap.carve, SlobHeap.setNext, SlobHeap.setUnits, SlobHeap.setSlobfree, hw, h₁, h₂, h₃]

theorem slobTake_fields (h : SlobHeap) (units prev cur : Nat) :
    (slobTake h units 0 prev cur).2.slobfree = prev ∧
      (slobTake h units 0 prev cur).2.arena = h.arena ∧
      (slobTake h units 0 prev cur).2.bigblocks = h.bigblocks ∧
      (slobTake h units 0 prev cur).2.pages = h.pages := by
  rw [slobTake_zero]
  split_ifs <;>
  simp [SlobHeap.carve, SlobHeap.setNext, SlobHeap.setUnits, SlobHeap.setSlobfree]

namespace SlobRing
variable {H : SlobHeap} {c t : Seg} {mid : List Seg}

theorem cycle_addrs (h : SlobRing H (c :: mid ++ [t])) :
    Cycle H.next (c.addr :: mid.map Seg.addr ++ [t.addr]) := by
  simpa using h.cycle

theorem remove (h : SlobRing H (c :: mid ++ [t])) :
    SlobRing (H.setNext t.addr (H.next c.addr)) (mid ++ [t]) := by
  have hd := List.pairwise_cons.1 h.disjoint
  have hn : ((mid ++ [t]).map Seg.addr).Nodup := h.nodup.tail
  refine ⟨?_, h.wrap.tail, ?_, fun s hs => h.pos s (List.mem_cons_of_mem _ hs), hd.2⟩
  · rw [next_setNext, List.map_append]
    exact Cycle.remove h.cycle_addrs (by simpa using hn)
  · intro s hs
    rw [units_setNext, h.header s (List.mem_cons_of_mem _ hs)]
    by_cases hst : s = t
    · subst hst
      omega
    · have := hd.2.forall hs (by simp) hst
      have := h.pos s (List.mem_cons_of_mem _ hs)
      have := h.pos t (by simp)
      simp only [Seg.Disjoint, Seg.stop] at *
      omega

theorem carve (h : SlobRing H (c :: mid ++ [t])) (hn : 0 < n) (hlt : n < c.units) :
    SlobRing (H.carve t.addr c.addr n) (⟨c.addr + 16 * n, c.units - n⟩ :: mid ++ [t]) := by
  have hd := List.pairwise_cons.1 h.disjoint
  have hc0 := h.pos c (by simp)
  have hfar : ∀ x ∈ mid ++ [t], x.addr + 16 ≤ c.addr ∨ c.stop ≤ x.addr := fun x hx => by
    have := hd.1 x hx
    have := h.pos x (List.mem_cons_of_mem _ hx)
    simp only [Seg.Disjoint, Seg.stop] at *
    omega
  have htc : t.addr + 16 ≤ c.addr ∨ c.addr + 16 ≤ t.addr := by
    have := hfar t (by simp)
    simp only [Seg.stop] at *
    omega
  have hmem : ∀ x ∈ (mid ++ [t]).map Seg.addr, x + 16 ≤ c.addr ∨ c.stop ≤ x := fun x hx => by
    obtain ⟨s, hs, rfl⟩ := List.mem_map.1 hx
    exact hfar s hs
  simp only [Seg.stop] at hmem hfar
  refine ⟨?_, ?_, ?_, ?_, List.pairwise_cons.2 ⟨fun x hx => ?_, hd.2⟩⟩
  · have hcyc := Cycle.replace (z := c.addr + 16 * n) (h.cycle_addrs) ?_ (by simpa using h.nodup.tail)
    · refine (cycle_congr fun x hx => ?_).2 (by simpa using hcyc)
      refine SlobHeap.next_carve H htc hn ?_
      rcases List.mem_cons.1 hx with rfl | hx
      · dsimp only
        omega
      · have := hmem x hx
        omega
    · intro hz
      have := hmem _ (by simpa using hz)
      omega
  · have hw := h.wrap
    obtain ⟨d, M, hdM⟩ : ∃ d M, mid ++ [t] = d :: M := List.exists_cons_of_ne_nil (by simp)
    rw [List.cons_append, hdM] at hw ⊢
    refine hw.replace ?_
    have := hfar d (by simp [hdM])
    simp only [Gap]
    omega
  · intro s hs
    have ht8 : s.addr ≠ t.addr + 8 := by
      rcases List.mem_cons.1 hs with rfl | hs
      · have := hfar t (by simp)
        dsimp only
        omega
      · by_cases hst : s = t
        · subst hst
          omega
        · have := hd.2.forall hs (by simp) hst
          have := h.pos s (List.mem_cons_of_mem _ hs)
          have := h.pos t (by simp)
          simp only [Seg.Disjoint, Seg.stop] at *
          omega
    rcases List.mem_cons.1 hs with rfl | hs
    · rw [SlobHeap.units_carve H htc ⟨ht8, by simp⟩, Function.update_of_ne (by dsimp only; omega),
        Function.update_self, h.header c (by simp)]
    · have := hfar s hs
      rw [SlobHeap.units_carve H htc ⟨ht8, by omega⟩, Function.update_of_ne (by omega),
        Function.update_of_ne (by omega)]
      exact h.header s (List.mem_cons_of_mem _ hs)
  · intro s hs
    rcases List.mem_cons.1 hs with rfl | hs
    · exact Nat.sub_pos_of_lt hlt
    · exact h.pos s (List.mem_cons_of_mem _ hs)
  · have := hfar x hx
    have := h.pos x (List.mem_cons_of_mem _ hx)
    have := hd.1 x hx
    simp only [Seg.Disjoint, Seg.stop] at *
    omega

end SlobRing

section SlobTake
variable {h : SlobHeap} {L mid used : List Seg} {c t : Seg}

/-- The block `c` behind `t` gives its first `n` units. -/
theorem slobTake_rep (hr : SlobRep h L used) (hL : L ~r c :: mid ++ [t]) (hn : 0 < n)
    (hle : n ≤ c.units) (hcA : c ≠ ⟨h.arena, 1⟩) :
    ∃ L', SlobRep (slobTake h n 0 t.addr c.addr).2 L' (⟨c.addr, n⟩ :: used) ∧
      (slobTake h n 0 t.addr c.addr).2.units c.addr = n ∧
      SlobFrame h (slobTake h n 0 t.addr c.addr).2 used := by
  have hring := hr.isRotated hL
  have hap : (c :: mid ++ [t]).Pairwise Seg.Apart :=
    (hL.perm.pairwise_iff fun h => h.symm).1 hr.apart
  have hT : Tiling ⟨h.arena, 1⟩ h.pages (c :: (mid ++ [t] ++ used)) :=
    hr.tiling.perm (hL.perm.append_right used)
  have hA : ⟨h.arena, 1⟩ ∈ mid ++ [t] :=
    (List.mem_cons.1 (hL.mem_iff.1 hr.arena)).resolve_left fun h => hcA h.symm
  have hcu : h.units c.addr = c.units := hring.header c (by simp)
  have htc : t.addr + 16 ≤ c.addr ∨ c.stop ≤ t.addr := by
    have := List.rel_of_pairwise_cons hap (show t ∈ mid ++ [t] by simp)
    have := hring.pos t (by simp)
    simp only [Seg.Apart, Seg.stop] at *
    omega
  obtain ⟨hsf, har, hbb, hpg⟩ := slobTake_fields h n t.addr c.addr
  have hframe : SlobFrame h (slobTake h n 0 t.addr c.addr).2 used := by
    refine ⟨fun s hs w hw hws => slobTake_frame h ?_ ?_, har, hbb⟩
    · have := (List.pairwise_append.1 hT.disjoint.tail).2.2 t (by simp) s hs
      have := hring.pos t (by simp)
      simp only [Seg.Disjoint, Seg.stop] at *
      omega
    · intro hne
      have := List.rel_of_pairwise_cons hT.disjoint (List.mem_append_right _ hs)
      simp only [Seg.Disjoint, Seg.stop, slobUnit] at *
      omega
  have assemble : ∀ L', SlobRing (slobTake h n 0 t.addr c.addr).2 L' → L'.Pairwise Seg.Apart →
      t.addr ∈ L'.map Seg.addr → ⟨h.arena, 1⟩ ∈ L' →
      Tiling ⟨h.arena, 1⟩ h.pages (L' ++ ⟨c.addr, n⟩ :: used) →
      SlobRep (slobTake h n 0 t.addr c.addr).2 L' (⟨c.addr, n⟩ :: used) := by
    intro L' hring' hap' hstart' hA' hT'
    refine ⟨hring', hap', by rwa [hsf], by rwa [har], by rwa [har, hpg], ?_⟩
    rw [har, hpg]
    exact hr.pages
  rcases hle.eq_or_lt with rfl | hlt
  · have he : (slobTake h c.units 0 t.addr c.addr).2 =
        (h.setNext t.addr (h.next c.addr)).setSlobfree t.addr := by
      rw [slobTake_zero, if_pos hcu]
    refine ⟨mid ++ [t], assemble _ ?_ hap.tail (by simp) hA ?_, ?_, hframe⟩
    · rw [he]
      exact hring.remove.setSlobfree _
    · exact hT.perm List.perm_middle.symm
    · rw [he, SlobHeap.units_setSlobfree, units_setNext, hcu]
      simp only [Seg.stop] at htc
      omega
  · have he : (slobTake h n 0 t.addr c.addr).2 =
        (h.carve t.addr c.addr n).setSlobfree t.addr := by
      rw [slobTake_zero, if_neg (by omega)]
    refine ⟨⟨c.addr + 16 * n, c.units - n⟩ :: mid ++ [t], assemble _ ?_ ?_ (by simp) ?_ ?_, ?_,
      hframe⟩
    · rw [he]
      exact (hring.carve hn hlt).setSlobfree _
    · refine List.pairwise_cons.2 ⟨fun x hx => ?_, hap.tail⟩
      have := List.rel_of_pairwise_cons hap hx
      simp only [Seg.Apart, Seg.stop] at *
      omega
    · exact List.mem_cons_of_mem _ hA
    · refine (hT.split hcA hn hlt).perm ?_
      exact (@List.perm_middle _ _ (_ :: (mid ++ [t])) _).symm
    · simp only [Seg.stop] at htc
      rw [he, SlobHeap.units_setSlobfree, SlobHeap.units_carve h (by omega) (by omega),
        Function.update_self]

end SlobTake

section Search
variable {h : SlobHeap} {n cur e fuel : Nat} {xs : List Nat}

theorem slobfree_of_last (hlast : (x :: xs).getLastD cur = h.slobfree) (hn : (cur :: x :: xs).Nodup) :
    cur ≠ h.slobfree ∧ xs.getLastD x = h.slobfree := by
  rw [List.getLastD_cons] at hlast
  refine ⟨?_, hlast⟩
  rintro rfl
  exact (List.nodup_cons.1 hn).1 (hlast ▸ getLastD_mem x xs)

/-- The search takes a block as soon as it meets one that is large enough. -/
theorem slobAllocLoop_found (size : Nat) (rs : List (Option Nat)) (hl : (cur :: xs).map h.next = xs ++ [e])
    (hprev : h.next prev = cur)
    (hlast : xs.getLastD cur = h.slobfree) (hn : (cur :: xs).Nodup)
    (hex : ∃ y ∈ cur :: xs, n ≤ h.units y) (hf : xs.length < fuel) :
    ∃ p c, c ∈ cur :: xs ∧ p ∈ prev :: cur :: xs ∧ h.next p = c ∧ n ≤ h.units c ∧
      slobAllocLoop size n 0 h prev cur rs fuel = some (some c, (slobTake h n 0 p c).2, rs) := by
  induction xs generalizing prev cur fuel with
  | nil =>
    obtain ⟨y, hy, hle⟩ := hex
    obtain rfl := List.mem_singleton.1 hy
    obtain ⟨fuel, rfl⟩ := Nat.exists_eq_add_one.2 hf
    refine ⟨prev, y, by simp, by simp, hprev, hle, ?_⟩
    simp [slobAllocLoop, hle, slobTake_zero]
  | cons x xs ih =>
    obtain ⟨hx, hxs⟩ : h.next cur = x ∧ (x :: xs).map h.next = xs ++ [e] := by simpa using hl
    obtain ⟨fuel, rfl⟩ := Nat.exists_eq_add_one.2 (Nat.zero_lt_of_lt hf)
    by_cases hle : n ≤ h.units cur
    · refine ⟨prev, cur, by simp, by simp, hprev, hle, ?_⟩
      simp [slobAllocLoop, hle, slobTake_zero]
    · obtain ⟨hne, hlast'⟩ := slobfree_of_last hlast hn
      have hex' : ∃ y ∈ x :: xs, n ≤ h.units y := by
        obtain ⟨y, hy, hy'⟩ := hex
        rcases List.mem_cons.1 hy with rfl | hy
        · exact absurd hy' hle
        · exact ⟨y, hy, hy'⟩
      obtain ⟨p, c, hc, hp, hpc, hle', he⟩ :=
        ih hxs hx hlast' hn.tail hex' (Nat.lt_of_succ_lt_succ hf)
      refine ⟨p, c, List.mem_cons_of_mem _ hc, List.mem_cons_of_mem _ hp, hpc, hle', ?_⟩
      simp [slobAllocLoop, hle, hne, hx, he]

/-- A search that meets no large block ends in a page request. -/
theorem slobAllocLoop_none (prev : Nat) (hl : (cur :: xs).map h.next = xs ++ [e])
    (hlast : xs.getLastD cur = h.slobfree) (hn : (cur :: xs).Nodup)
    (hall : ∀ y ∈ cur :: xs, h.units y < n) (hs : size ≠ pageSize) :
    slobAllocLoop size n 0 h prev cur (r :: rs) (xs.length + 1 + fuel) =
      match r with
      | none => some (none, h, rs)
      | some page => (slobFree { h with pages := page :: h.pages } page pageSize).bind fun h =>
          slobAllocLoop size n 0 h h.slobfree (h.next h.slobfree) rs fuel := by
  induction xs generalizing prev cur with
  | nil =>
    obtain rfl : cur = h.slobfree := hlast
    have hlt : ¬ n ≤ h.units h.slobfree := Nat.not_le.2 (hall _ (by simp))
    rw [List.length_nil, Nat.zero_add, Nat.add_comm]
    cases r <;> simp [slobAllocLoop, hlt, hs]
  | cons x xs ih =>
    obtain ⟨hx, hxs⟩ : h.next cur = x ∧ (x :: xs).map h.next = xs ++ [e] := by simpa using hl
    obtain ⟨hne, hlast'⟩ := slobfree_of_last hlast hn
    have hlt : ¬ n ≤ h.units cur := Nat.not_le.2 (hall _ (by simp))
    have hstep := ih cur hxs hlast' hn.tail fun y hy => hall y (List.mem_cons_of_mem _ hy)
    have hf : (x :: xs).length + 1 + fuel = xs.length + 1 + fuel + 1 := by
      simp only [List.length_cons]
      omega
    rw [hf, ← hstep]
    simp [slobAllocLoop, hlt, hne, hx]

end Search

section SlobAlloc
variable {h : SlobHeap} {L used : List Seg} {size : Nat}

/-- The blocks in the order in which the search of `slob_alloc` visits them. -/
theorem SlobRep.visit (hr : SlobRep h L used) : ∃ xs, L.map Seg.addr ~r h.next h.slobfree :: xs ∧
    (h.next h.slobfree :: xs).map h.next = xs ++ [h.next h.slobfree] ∧
    xs.getLastD (h.next h.slobfree) = h.slobfree ∧ (h.next h.slobfree :: xs).Nodup ∧
    xs.length + 1 = L.length := by
  obtain ⟨ys, hys⟩ := exists_rotated_head hr.start
  have hcyc := hr.cycle.isRotated hys
  obtain ⟨c, xs, hcx⟩ : ∃ c xs, ys ++ [h.slobfree] = c :: xs := List.exists_cons_of_ne_nil (by simp)
  have hrot : L.map Seg.addr ~r c :: xs := by
    rw [← hcx]
    exact hys.trans (rotated_append [h.slobfree] ys)
  have hlast : xs.getLastD c = h.slobfree := by
    have : (c :: xs).getLastD 0 = h.slobfree := by rw [← hcx, List.getLastD_concat]
    rwa [List.getLastD_cons] at this
  have hlink := hr.cycle.isRotated hrot
  have hnext : h.next h.slobfree = c := hlast ▸ hlink.next_last
  rw [hnext]
  refine ⟨xs, hrot, cycle_cons_iff.1 hlink, hlast, hrot.perm.nodup_iff.1 hr.nodup, ?_⟩
  simpa using hrot.perm.length_eq.symm

theorem slobAllocLoop_rep (size : Nat) (rs : List (Option Nat)) (hr : SlobRep h L used) (hn : 1 < n)
    (hex : ∃ s ∈ L, n ≤ s.units)
    (hf : L.length ≤ fuel) : ∃ c h' L',
      slobAllocLoop size n 0 h h.slobfree (h.next h.slobfree) rs fuel = some (some c, h', rs) ∧
      SlobRep h' L' (⟨c, n⟩ :: used) ∧ h'.units c = n ∧ SlobFrame h h' used ∧
      h'.pages = h.pages := by
  obtain ⟨xs, hrot, hlink, hlast, hnd, hlen⟩ := hr.visit
  have hex' : ∃ y ∈ h.next h.slobfree :: xs, n ≤ h.units y := by
    obtain ⟨s, hs, hle⟩ := hex
    exact ⟨s.addr, hrot.mem_iff.1 (List.mem_map_of_mem hs), by rwa [hr.header s hs]⟩
  obtain ⟨p, c, hc, hp, hpc, hle, he⟩ := slobAllocLoop_found size rs hlink rfl hlast
    hnd hex' (by omega : xs.length < fuel)
  obtain ⟨c, hcL, rfl⟩ := List.mem_map.1 (hrot.mem_iff.2 hc)
  have hp' : p ∈ L.map Seg.addr := by
    rcases List.mem_cons.1 hp with rfl | hp
    · exact hr.start
    · exact hrot.mem_iff.2 hp
  obtain ⟨t, htL, rfl⟩ := List.mem_map.1 hp'
  have hcA : c ≠ ⟨h.arena, 1⟩ := by
    rintro rfl
    have hA : h.units h.arena = 1 := hr.header _ hr.arena
    simp only [hA] at hle
    omega
  rw [hr.header c hcL] at hle
  obtain ⟨d, M, hdM, hMt, hring⟩ := hr.rotate_last htL
  obtain rfl : d = c := by
    refine hring.addr_inj (by simp) (hdM.mem_iff.1 hcL) ?_
    rw [← hpc, ← hMt, hring.next_last]
  obtain ⟨mid, hmid⟩ : ∃ mid, L ~r d :: mid ++ [t] := by
    rcases M.eq_nil_or_concat with rfl | ⟨mid, t', rfl⟩
    · have := hdM.mem_iff.1 hr.arena
      exact absurd (List.mem_singleton.1 this).symm hcA
    · rw [List.concat_eq_append] at hdM hMt
      rw [List.getLastD_concat] at hMt
      exact ⟨mid, hMt ▸ hdM⟩
  obtain ⟨L', hr', hu, hfr⟩ := slobTake_rep hr hmid (by omega) hle hcA
  exact ⟨d.addr, _, L', he, hr', hu, hfr, (slobTake_fields ..).2.2.2⟩

/-- The runs `L'` and the block of `n` units at `c` are what `slob_alloc` made of the heap. -/
structure SlobTaken (h h' : SlobHeap) (c n : Nat) (used : List Seg) (ps : List Nat) : Prop where
  rep : ∃ L', SlobRep h' L' (⟨c, n⟩ :: used)
  header : h'.units c = n
  frame : SlobFrame h h' used
  pages : h'.pages = ps

/-- A page that the arena may take in. -/
structure ArenaPage (h : SlobHeap) (p : Nat) : Prop where
  pos : 0 < p
  arena : Seg.Apart ⟨h.arena, 1⟩ (pageSeg p)
  disjoint : ∀ q ∈ h.pages, Seg.Disjoint (pageSeg p) (pageSeg q)

theorem slobUnits_bounds (hs : slobUnit < size) (hs' : size + slobUnit < pageSize) :
    1 < slobUnits size ∧ slobUnits size ≤ 256 := by
  simp only [slobUnits, slobUnit, pageSize] at *
  omega

theorem slobAlloc_large (rs : List (Option Nat)) (hr : SlobRep h L used) (hs : slobUnit < size)
    (hs' : size + slobUnit < pageSize) (hex : ∃ s ∈ L, slobUnits size ≤ s.units) :
    ∃ c h', slobAlloc h size 0 rs = some (some c, h', rs) ∧
      SlobTaken h h' c (slobUnits size) used h.pages := by
  have hfuel : L.length ≤ 2 * h.fuel + 2 * 256 :=
    hr.length_le.trans (by simp only [SlobHeap.fuel]; omega)
  obtain ⟨c, h', L', he, hr', hu, hfr, hpg⟩ := slobAllocLoop_rep size rs hr
    (slobUnits_bounds hs hs').1 hex hfuel
  exact ⟨c, h', by rw [slobAlloc, if_pos hs', he], ⟨L', hr'⟩, hu, hfr, hpg⟩

theorem slobAlloc_small (r : Option Nat) (rs : List (Option Nat)) (hr : SlobRep h L used) (hs' : size + slobUnit < pageSize)
    (hex : ¬ ∃ s ∈ L, slobUnits size ≤ s.units) : ∃ fuel, 256 * h.pages.length + 257 ≤ fuel ∧
      slobAlloc h size 0 (r :: rs) = match r with
        | none => some (none, h, rs)
        | some page => (slobFree { h with pages := page :: h.pages } page pageSize).bind fun h =>
            slobAllocLoop size (slobUnits size) 0 h h.slobfree (h.next h.slobfree) rs fuel := by
  obtain ⟨xs, hrot, hlink, hlast, hnd, hlen⟩ := hr.visit
  have hall : ∀ y ∈ h.next h.slobfree :: xs, h.units y < slobUnits size := fun y hy => by
    obtain ⟨s, hs, rfl⟩ := List.mem_map.1 (hrot.mem_iff.2 hy)
    rw [hr.header s hs]
    exact Nat.lt_of_not_le fun hle => hex ⟨s, hs, hle⟩
  have hle := hr.length_le
  obtain ⟨fuel, hfuel⟩ : ∃ fuel, 2 * h.fuel + 2 * 256 = xs.length + 1 + fuel :=
    Nat.exists_eq_add_of_le (by simp only [SlobHeap.fuel]; omega)
  refine ⟨fuel, by simp only [SlobHeap.fuel] at hfuel; omega, ?_⟩
  rw [slobAlloc, if_pos hs', hfuel]
  exact slobAllocLoop_none _ hlink hlast hnd hall (by omega)

theorem slobAlloc_refused (hr : SlobRep h L used) (hs' : size + slobUnit < pageSize)
    (hex : ¬ ∃ s ∈ L, slobUnits size ≤ s.units) :
    slobAlloc h size 0 (none :: rs) = some (none, h, rs) := by
  obtain ⟨fuel, -, he⟩ := slobAlloc_small none rs hr hs' hex
  exact he

theorem slobAlloc_grown (rs : List (Option Nat)) (hr : SlobRep h L used) (hs : slobUnit < size)
    (hs' : size + slobUnit < pageSize) (hex : ¬ ∃ s ∈ L, slobUnits size ≤ s.units)
    (hp : ArenaPage h p) : ∃ c h', slobAlloc h size 0 (some p :: rs) = some (some c, h', rs) ∧
      SlobTaken h h' c (slobUnits size) used (p :: h.pages) := by
  obtain ⟨fuel, hfuel, he⟩ := slobAlloc_small (some p) rs hr hs' hex
  have hfuel' : 1 + 256 * (p :: h.pages).length ≤ fuel := by
    rw [List.length_cons, Nat.mul_succ, Nat.add_comm]
    exact hfuel
  obtain ⟨hn, hn'⟩ := slobUnits_bounds hs hs'
  have hbase : SlobRep { h with pages := p :: h.pages } L (pageSeg p :: used) := by
    refine ⟨⟨hr.cycle, hr.wrap, hr.header, hr.pos, hr.disjoint⟩, hr.apart, hr.start, hr.arena, ?_, ?_⟩
    · exact (hr.tiling.page hp.arena.disjoint.symm hp.disjoint).perm List.perm_middle.symm
    · intro q hq
      rcases List.mem_cons.1 hq with rfl | hq
      · exact ⟨hp.pos, hp.arena⟩
      · exact hr.pages q hq
  have hset := hbase.store_used (s := pageSeg p) (a := p) (v := slobUnits pageSize) (by simp) le_rfl
    (by simp [Seg.stop, pageSeg])
  obtain ⟨h₁, L₁, hfree, hr₁, hf₁, hpg₁, hbig⟩ := slobFree_rep hset (Function.update_self ..)
  have hfree' : slobFree { h with pages := p :: h.pages } p pageSize = some h₁ := by
    rw [slobFree_size hp.pos.ne' (by simp [pageSize])]
    exact hfree
  have hlen := hr₁.length_le
  rw [hpg₁] at hlen
  obtain ⟨c, h', L', he', hr', hu, hfr, hpg⟩ := slobAllocLoop_rep size rs hr₁ hn
    (hbig.imp fun s hs => ⟨hs.1, hn'.trans hs.2⟩) (hlen.trans hfuel')
  have hf₀ : SlobFrame h (({ h with pages := p :: h.pages } : SlobHeap).store p
      (slobUnits pageSize)) used := by
    refine ⟨fun s hs => ?_, rfl, rfl⟩
    have := List.rel_of_pairwise_cons (List.pairwise_append.1 hbase.tiling.disjoint).2.1 hs
    refine sameOn_store (h := { h with pages := p :: h.pages }) ?_
    simp only [Seg.Disjoint, Seg.stop, pageSeg] at *
    omega
  refine ⟨c, h', ?_, ⟨L', hr'⟩, hu, (hf₀.trans hf₁).trans hfr, hpg.trans hpg₁⟩
  rw [he]
  simp [hfree', he']

/-- With the reply `r` at hand `slob_alloc` returns: it takes a block, or it has met no block that is
large enough and has been refused a page. -/
theorem slobAlloc_total (hr : SlobRep h L used) (hs : slobUnit < size)
    (hs' : size + slobUnit < pageSize) (hp : ∀ p, r = some p → ArenaPage h p) :
    (∃ c h' rs ps, slobAlloc h size 0 [r] = some (some c, h', rs) ∧
      SlobTaken h h' c (slobUnits size) used ps ∧ (ps = h.pages ∨ ∃ p, r = some p ∧ ps = p :: h.pages) ∧
      (rs = [] → ∀ s ∈ L, s.units < slobUnits size)) ∨
    (slobAlloc h size 0 [r] = some (none, h, []) ∧ ∀ s ∈ L, s.units < slobUnits size) := by
  by_cases hex : ∃ s ∈ L, slobUnits size ≤ s.units
  · obtain ⟨c, h', he, ht⟩ := slobAlloc_large [r] hr hs hs' hex
    exact .inl ⟨c, h', [r], _, he, ht, .inl rfl, fun h => absurd h (by simp)⟩
  · have hall : ∀ s ∈ L, s.units < slobUnits size := fun s hs =>
      Nat.lt_of_not_le fun hle => hex ⟨s, hs, hle⟩
    cases r with
    | none => exact .inr ⟨slobAlloc_refused hr hs' hex, hall⟩
    | some p =>
      obtain ⟨c, h', he, ht⟩ := slobAlloc_grown [] hr hs hs' hex (hp p rfl)
      exact .inl ⟨c, h', [], _, he, ht, .inr ⟨p, rfl, rfl⟩, fun _ => hall⟩

/-- The heap keeps the page for which it takes the reply. -/
theorem slobAlloc_pages (hr : SlobRep h L used) (hs : slobUnit < size) (hs' : size + slobUnit < pageSize)
    (hp : ∀ p, r = some p → ArenaPage h p) (he : slobAlloc h size 0 [r] = some (c, h', rs)) :
    h'.pages = (if rs = [] then r.toList else []) ++ h.pages ∧ h'.arena = h.arena := by
  by_cases hex : ∃ s ∈ L, slobUnits size ≤ s.units
  · obtain ⟨b, t, hb, ht⟩ := slobAlloc_large [r] hr hs hs' hex
    rw [hb] at he
    cases he
    exact ⟨by simpa using ht.pages, ht.frame.arena⟩
  · cases r with
    | none =>
      rw [slobAlloc_refused hr hs' hex] at he
      cases he
      exact ⟨rfl, rfl⟩
    | some p =>
      obtain ⟨b, t, hb, ht⟩ := slobAlloc_grown [] hr hs hs' hex (hp p rfl)
      rw [hb] at he
      cases he
      exact ⟨ht.pages, ht.frame.arena⟩

end SlobAlloc

end UCore
