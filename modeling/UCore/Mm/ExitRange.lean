import UCore.Mm.UnmapRange

namespace UCore
set_option autoImplicit true

/-- The address of the slot `j` in the directory of the region `i`. -/
def slotAddr (i j : Nat) : Nat := i * pdSize + j * ptSize

/-- The slots from the address `a` on, below `stop`. -/
def SlotsOf (a stop i j : Nat) : Prop := j < 512 ∧ a ≤ slotAddr i j ∧ slotAddr i j < stop

theorem slotAddr_eq (i j : Nat) : slotAddr i j = 1073741824 * i + 2097152 * j := by
  unfold slotAddr pdSize ptSize pgSize nPteEntry
  omega

theorem pdx0_slotAddr (i : Nat) (hj : j < 512) : pdx0 (slotAddr i j) = j := by
  rw [slotAddr_eq, pdx0]
  omega

theorem pdx1_region (hi : i < 256) : pdx1 (i * pdSize) = i := by
  rw [show pdSize = 1073741824 from rfl, pdx1]
  omega

theorem slotAddr_succ (i j : Nat) : slotAddr i j + ptSize = slotAddr i (j + 1) := by
  rw [slotAddr, slotAddr, Nat.add_assoc, Nat.succ_mul]

theorem slotAddr_region (i : Nat) : i * pdSize + pdSize = slotAddr (i + 1) 0 := by
  rw [slotAddr, Nat.zero_mul, Nat.add_zero, Nat.succ_mul]

theorem slotsOf_cons (hj : j < 512) : SlotsOf (slotAddr i j) stop i' k ↔
    (i' = i ∧ k = j ∧ slotAddr i j < stop) ∨ SlotsOf (slotAddr i (j + 1)) stop i' k := by
  simp only [SlotsOf, slotAddr_eq]
  omega

/-- The slots that `exit_range` visits for an area. -/
def Vma.Slots (vma : Vma) (i j : Nat) : Prop :=
  j < 512 ∧ vma.vmStart < slotAddr i j + ptSize ∧ slotAddr i j < vma.vmEnd

/-- All entries of the table that are in use lead to pages in `P`. -/
def Mem.Bare {A : PhysSys} (m : Mem A) (P : Nat → Prop) (t : Nat) : Prop :=
  ∀ k < nPteEntry, pteValid (m.frame t k) → P (ptePpn (m.frame t k))

/-- The pages among the frames `l` are those in `P`. -/
def PagesIn (role : Nat → Role) (l : List Nat) (P : Nat → Prop) : Prop :=
  ∀ f, role f = .leaf → (f ∈ l ↔ P f)

section
variable {A : PhysSys} {m m' m'' : Mem A} {role : Nat → Role} {vma : Vma} {P : Nat → Prop}

/-- The table at a place is the one that the table above has an entry for. -/
theorem Paged.child_role (h : Paged m role) (hg : role g = .node d p) (hp : p.length < 2) :
    role t = .node d (p ++ [j]) ↔ m.Linked role d g j ∧ ptePpn (m.frame g j) = t := by
  constructor
  · intro ht
    obtain ⟨-, hj, e, he, hv, het⟩ := h.tables.parent t d p j ht
    obtain rfl := h.tables.inj he hg
    exact ⟨⟨⟨_, hg, hj⟩, hv⟩, het⟩
  · rintro ⟨⟨⟨q, hq, hj⟩, hv⟩, rfl⟩
    obtain ⟨-, rfl⟩ := Role.node.inj (hg.symm.trans hq)
    exact h.tables.child g d p j hg hp hj hv

theorem Paged.slot_role (h : Paged m role) (hg : role g = .node d [i]) :
    role t = .node d [i, j] ↔ m.Linked role d g j ∧ ptePpn (m.frame g j) = t :=
  h.child_role hg (show 1 < 2 by decide)

theorem Paged.region_role (h : Paged m role) (hd : role d = .node d []) :
    role t = .node d [i] ↔ m.Linked role d d i ∧ ptePpn (m.frame d i) = t :=
  h.child_role hd (show 0 < 2 by decide)

/-- What the loop of `exit_range` does with the slot `j` of the directory page `g`. -/
def Mem.exitSlot (m : Mem A) (g j : Nat) (freePd0 : Bool) : Option (Bool × Mem A) :=
  if pteValid (m.frame g j) then do
    let pt ← kva (ptePpn (m.frame g j))
    if ∀ i < nPteEntry, pteValid (m.frame pt i) = false then
      some (freePd0, (m.freePage pt).setEntry g j 0)
    else some (freePd0, m)
  else some (false, m)

theorem exitSlots_succ (hb : m.exitSlot g (pdx0 a) fl = some (fl₁, m')) :
    m.exitSlots g d1start stop a fl (fuel + 1) =
      if a + ptSize ≠ 0 ∧ a + ptSize < d1start + pdSize ∧ a + ptSize < stop then
        m'.exitSlots g d1start stop (a + ptSize) fl₁ fuel
      else some (fl₁, m') := by
  unfold Mem.exitSlot at hb
  rw [Mem.exitSlots, hb, Option.bind_eq_bind, Option.bind_some]

/-- Tables among the frames do not matter. -/
theorem PagesIn.tables {Q : Nat → Prop} (h : PagesIn role l P) (hl : ∀ f, f ∈ l' ↔ f ∈ l ∨ Q f)
    (hq : ∀ f, Q f → ∃ p, role f = .node d p) : PagesIn role l' P := by
  intro f hf
  rw [hl, h f hf]
  refine or_iff_left fun hc => ?_
  obtain ⟨p, hp⟩ := hq f hc
  rw [hf] at hp
  cases hp

/-- What the test of `exit_range` for an empty table finds, where the frames `l` have been given back. -/
theorem Freed.empty_iff (h : Freed d l m m' role) (hm : Paged m role) (hP : PagesIn role l P)
    (ht : role t = .node d [i, j]) : (∀ k < nPteEntry, pteValid (m'.frame t k) = false) ↔ m.Bare P t := by
  refine forall₂_congr fun k hk => ?_
  rw [Bool.eq_false_iff, Ne, h.entry_valid ht hk, not_and, not_not]
  refine forall_congr' fun hv => hP _ ?_
  exact hm.tables.leaf t d [i, j] k ht rfl hk hv

/-- An empty table in the slot is given back. -/
theorem Freed.exitSlot (h : Freed d l m m' role) (hm : Paged m role) (hP : PagesIn role l P)
    (hg : role g = .node d [i]) (hj : j < 512) (fl : Bool) :
    ∃ l' fl' m'', m'.exitSlot g j fl = some (fl', m'') ∧ Freed d l' m m'' role ∧
      (∀ f, f ∈ l' ↔ f ∈ l ∨ role f = .node d [i, j] ∧ m.Bare P f) ∧
      (fl' = true ↔ fl = true ∧ ∃ t, t ∉ l ∧ role t = .node d [i, j]) := by
  have hval := h.entry_valid hg (show j < sv39.width [i].length from hj)
  unfold Mem.exitSlot
  by_cases hv : pteValid (m'.frame g j)
  · obtain ⟨hvalid, hn⟩ := hval.1 hv
    have hlink : m.Linked role d g j := ⟨⟨_, hg, hj⟩, hvalid⟩
    have ht : role (ptePpn (m.frame g j)) = .node d [i, j] := (hm.slot_role hg).2 ⟨hlink, rfl⟩
    have hfl : fl = true ↔ fl = true ∧ ∃ t, t ∉ l ∧ role t = .node d [i, j] :=
      ⟨fun hfl => ⟨hfl, _, hn, ht⟩, fun hfl => hfl.1⟩
    rw [if_pos hv, h.kept g j fun hc => hn hc.2, kva_eq (hm.linked_pool hlink).2.1]
    simp only [Option.bind_eq_bind, Option.bind_some]
    by_cases hb : m.Bare P (ptePpn (m.frame g j))
    · have hu (hc : role (ptePpn (m.frame g j)) = .leaf) : m.Unshared d := by
        rw [ht] at hc
        cases hc
      refine ⟨_, fl, _, if_pos ((h.empty_iff hm hP ht).2 hb), h.free hm hlink hu hn, fun f => ?_, hfl⟩
      rw [List.mem_append, List.mem_singleton]
      refine or_congr_right ⟨?_, fun hf => hm.tables.inj hf.1 ht⟩
      rintro rfl
      exact ⟨ht, hb⟩
    · refine ⟨l, fl, m', if_neg fun hc => hb ((h.empty_iff hm hP ht).1 hc), h, fun f => ⟨.inl, ?_⟩, hfl⟩
      rintro (hf | ⟨hf, hc⟩)
      · exact hf
      · rw [hm.tables.inj hf ht] at hc
        exact absurd hc hb
  · have hno (t : Nat) (ht : role t = .node d [i, j]) : t ∈ l := by
      obtain ⟨hlink, rfl⟩ := (hm.slot_role hg).1 ht
      by_contra hn
      exact hv (hval.2 ⟨hlink.2, hn⟩)
    refine ⟨l, false, m', if_neg hv, h, fun f => ⟨.inl, fun hf => hf.elim id fun hf => hno f hf.1⟩, ?_⟩
    refine iff_of_false (by simp) ?_
    rintro ⟨-, t, hn, ht⟩
    exact hn (hno t ht)

/-- The loop of `exit_range` over slots gives back the empty tables in them. -/
theorem Freed.exitSlots (h : Freed d l m m' role) (hm : Paged m role) (hP : PagesIn role l P)
    (hg : role g = .node d [i]) (hj : j < 512) (hs : slotAddr i j < stop) (hfuel : 512 - j ≤ fuel) (fl : Bool) :
    ∃ l' fl' m'', m'.exitSlots g (i * pdSize) stop (slotAddr i j) fl fuel = some (fl', m'') ∧
      Freed d l' m m'' role ∧
      (∀ f, f ∈ l' ↔ f ∈ l ∨ ∃ k, SlotsOf (slotAddr i j) stop i k ∧ role f = .node d [i, k] ∧ m.Bare P f) ∧
      (fl' = true ↔ fl = true ∧ ∀ k, SlotsOf (slotAddr i j) stop i k → ∃ t, t ∉ l ∧ role t = .node d [i, k]) := by
  induction fuel generalizing j l m' fl with
  | zero => omega
  | succ fuel ih =>
    obtain ⟨l₁, fl₁, m₁, hbody, h₁, hmem₁, hfl₁⟩ := h.exitSlot hm hP hg hj fl
    have hP₁ : PagesIn role l₁ P := hP.tables hmem₁ fun f hf => ⟨_, hf.1⟩
    have hleft (k : Nat) (hk : k ≠ j) :
        (∃ t, t ∉ l₁ ∧ role t = .node d [i, k]) ↔ ∃ t, t ∉ l ∧ role t = .node d [i, k] := by
      refine exists_congr fun t => and_congr_left fun ht => not_congr ?_
      rw [hmem₁]
      refine or_iff_left fun hc => hk ?_
      have hp := (Role.node.inj (ht.symm.trans hc.1)).2
      simpa using hp
    rw [exitSlots_succ (by rw [pdx0_slotAddr i hj]; exact hbody), slotAddr_succ, slotAddr_region]
    by_cases hgo : slotAddr i (j + 1) < slotAddr (i + 1) 0 ∧ slotAddr i (j + 1) < stop
    · have hj' : j + 1 < 512 := by
        have hlt := hgo.1
        rw [slotAddr_eq, slotAddr_eq] at hlt
        omega
      have hne : slotAddr i (j + 1) ≠ 0 := by
        rw [slotAddr_eq]
        omega
      rw [if_pos ⟨hne, hgo⟩]
      obtain ⟨l₂, fl₂, m₂, hrun, h₂, hmem₂, hfl₂⟩ := ih h₁ hP₁ hj' hgo.2 (by omega) fl₁
      refine ⟨l₂, fl₂, m₂, hrun, h₂, fun f => ?_, ?_⟩
      · rw [hmem₂, hmem₁, or_assoc]
        refine or_congr_right ⟨?_, ?_⟩
        · rintro (hf | ⟨k, hk, hf⟩)
          · exact ⟨j, (slotsOf_cons hj).2 (.inl ⟨rfl, rfl, hs⟩), hf⟩
          · exact ⟨k, (slotsOf_cons hj).2 (.inr hk), hf⟩
        · rintro ⟨k, hk, hf⟩
          rcases (slotsOf_cons hj).1 hk with ⟨-, rfl, -⟩ | hk
          · exact .inl hf
          · exact .inr ⟨k, hk, hf⟩
      · have hlater (k : Nat) (hk : SlotsOf (slotAddr i (j + 1)) stop i k) : k ≠ j := by
          rintro rfl
          have hle := hk.2.1
          rw [slotAddr_eq, slotAddr_eq] at hle
          omega
        rw [hfl₂, hfl₁, and_assoc]
        refine and_congr_right fun _ => ⟨?_, fun hall => ⟨?_, fun k hk => ?_⟩⟩
        · rintro ⟨hj₀, hall⟩ k hk
          rcases (slotsOf_cons hj).1 hk with ⟨-, rfl, -⟩ | hk
          · exact hj₀
          · exact (hleft k (hlater k hk)).1 (hall k hk)
        · exact hall j ((slotsOf_cons hj).2 (.inl ⟨rfl, rfl, hs⟩))
        · exact (hleft k (hlater k hk)).2 (hall k ((slotsOf_cons hj).2 (.inr hk)))
    · have hlast (k : Nat) : ¬ SlotsOf (slotAddr i (j + 1)) stop i k := by
        intro hk
        apply hgo
        simp only [SlotsOf, slotAddr_eq] at hk ⊢
        omega
      rw [if_neg fun hc => hgo hc.2]
      refine ⟨l₁, fl₁, m₁, rfl, h₁, fun f => ?_, ?_⟩
      · rw [hmem₁]
        refine or_congr_right ⟨fun hf => ⟨j, (slotsOf_cons hj).2 (.inl ⟨rfl, rfl, hs⟩), hf⟩, ?_⟩
        rintro ⟨k, hk, hf⟩
        rcases (slotsOf_cons hj).1 hk with ⟨-, rfl, -⟩ | hk
        · exact hf
        · exact absurd hk (hlast k)
      · rw [hfl₁]
        refine and_congr_right fun _ => ⟨fun hj₀ k hk => ?_, fun hall => ?_⟩
        · rcases (slotsOf_cons hj).1 hk with ⟨-, rfl, -⟩ | hk
          · exact hj₀
          · exact absurd hk (hlast k)
        · exact hall j ((slotsOf_cons hj).2 (.inl ⟨rfl, rfl, hs⟩))

/-- The frames of the region `i` that `exit_range` gives back when it visits the slots `V` of it, where the
frames `l` have been given back before. -/
def SweptOf (role : Nat → Role) (d : Nat) (l : List Nat) (i : Nat) (V : Nat → Prop) (f : Nat) : Prop :=
  (∃ g, g ∉ l ∧ role g = .node d [i]) ∧ ((∃ k, V k ∧ role f = .node d [i, k]) ∨
    role f = .node d [i] ∧ ∀ k, V k → ∃ t, t ∉ l ∧ role t = .node d [i, k])

/-- The same where only the tables in `E` are empty. -/
def PrunedOf (role : Nat → Role) (E : Nat → Prop) (d : Nat) (l : List Nat) (i : Nat) (V : Nat → Prop) (f : Nat) : Prop :=
  (∃ g, g ∉ l ∧ role g = .node d [i]) ∧ ((∃ k, V k ∧ role f = .node d [i, k] ∧ E f) ∨
    role f = .node d [i] ∧ ∀ k, V k → ∃ t, t ∉ l ∧ role t = .node d [i, k])

theorem PrunedOf.node (h : PrunedOf role E d l i V f) : ∃ p, role f = .node d (i :: p) := by
  obtain ⟨-, ⟨k, -, hf, -⟩ | ⟨hf, -⟩⟩ := h
  · exact ⟨_, hf⟩
  · exact ⟨_, hf⟩

theorem sweptOf_iff (hE : ∀ j t, role t = .node d [i, j] → E t) :
    SweptOf role d l i V f ↔ PrunedOf role E d l i V f := by
  refine and_congr_right fun _ => or_congr_left (exists_congr fun k => and_congr_right fun _ => ?_)
  exact ⟨fun hf => ⟨hf, hE k f hf⟩, fun hf => hf.1⟩

/-- What the outer loop of `exit_range` does in a region. -/
def Mem.exitRegion (m : Mem A) (pgdir stop d1start d0start : Nat) : Option (Mem A) :=
  if pteValid (m.frame pgdir (pdx1 d1start)) then do
    let pd0 ← kva (ptePpn (m.frame pgdir (pdx1 d1start)))
    let (freePd0, m) ← m.exitSlots pd0 d1start stop d0start true nPteEntry
    if freePd0 then some ((m.freePage pd0).setEntry pgdir (pdx1 d1start) 0) else some m
  else some m

theorem exitLoop_succ (hb : m.exitRegion d stop d1start d0start = some m') :
    m.exitLoop d stop d1start d0start (fuel + 1) =
      if d1start + pdSize ≠ 0 ∧ d1start + pdSize < stop then
        m'.exitLoop d stop (d1start + pdSize) (d1start + pdSize) fuel
      else some m' := by
  unfold Mem.exitRegion at hb
  rw [Mem.exitLoop, hb, Option.bind_eq_bind, Option.bind_some]

theorem Freed.exitRegion (h : Freed d l m m' role) (hm : Paged m role) (hP : PagesIn role l P)
    (hd : role d = .node d []) (hi : i < 256) (hj : j < 512) (hs : slotAddr i j < stop) :
    ∃ l' m'', m'.exitRegion d stop (i * pdSize) (slotAddr i j) = some m'' ∧ Freed d l' m m'' role ∧
      ∀ f, f ∈ l' ↔ f ∈ l ∨ PrunedOf role (m.Bare P) d l i (SlotsOf (slotAddr i j) stop i) f := by
  have hval := h.entry_valid hd (show i < sv39.width ([] : List Nat).length from hi)
  unfold Mem.exitRegion
  rw [pdx1_region hi]
  by_cases hv : pteValid (m'.frame d i)
  · obtain ⟨hvalid, hn⟩ := hval.1 hv
    have hlink : m.Linked role d d i := ⟨⟨_, hd, hi⟩, hvalid⟩
    have hg : role (ptePpn (m.frame d i)) = .node d [i] := (hm.region_role hd).2 ⟨hlink, rfl⟩
    obtain ⟨l₁, fl, m₁, hrun, h₁, hmem₁, hfl⟩ := h.exitSlots hm hP hg hj hs (Nat.sub_le ..) true
    rw [if_pos hv, h.kept d i fun hc => hn hc.2, kva_eq (hm.linked_pool hlink).2.1]
    simp only [Option.bind_eq_bind, Option.bind_some]
    rw [show nPteEntry = 512 from rfl, hrun]
    have hopen : ∃ g, g ∉ l ∧ role g = .node d [i] := ⟨_, hn, hg⟩
    cases fl with
    | false =>
      refine ⟨l₁, m₁, rfl, h₁, fun f => ?_⟩
      rw [hmem₁]
      refine or_congr_right ⟨fun hf => ⟨hopen, .inl hf⟩, ?_⟩
      rintro ⟨-, hf | ⟨-, hall⟩⟩
      · exact hf
      · have hc := hfl.2 ⟨rfl, hall⟩
        cases hc
    | true =>
      have hn₁ : ptePpn (m.frame d i) ∉ l₁ := by
        rw [hmem₁]
        rintro (hc | ⟨k, -, hc, -⟩)
        · exact hn hc
        · rw [hg] at hc
          have hp := (Role.node.inj hc).2
          simp at hp
      have hu (hc : role (ptePpn (m.frame d i)) = .leaf) : m.Unshared d := by
        rw [hg] at hc
        cases hc
      refine ⟨_, _, rfl, h₁.free hm hlink hu hn₁, fun f => ?_⟩
      rw [List.mem_append, hmem₁, List.mem_singleton, or_assoc]
      refine or_congr_right ⟨?_, ?_⟩
      · rintro (hf | rfl)
        · exact ⟨hopen, .inl hf⟩
        · exact ⟨hopen, .inr ⟨hg, (hfl.1 rfl).2⟩⟩
      · rintro ⟨-, hf | ⟨hf, -⟩⟩
        · exact .inl hf
        · exact .inr (hm.tables.inj hf hg)
  · refine ⟨l, m', if_neg hv, h, fun f => ⟨.inl, fun hf => hf.elim id ?_⟩⟩
    rintro ⟨⟨g, hn, hg⟩, -⟩
    obtain ⟨hlink, rfl⟩ := (hm.region_role hd).1 hg
    exact absurd (hval.2 ⟨hlink.2, hn⟩) hv

theorem slotsOf_next (hj : j < 512) :
    SlotsOf (slotAddr (i + 1) 0) stop i' k ↔ i' ≠ i ∧ SlotsOf (slotAddr i j) stop i' k := by
  simp only [SlotsOf, slotAddr_eq]
  omega

/-- Frames of other regions do not matter. -/
theorem pruned_congr (hi : i' ≠ i) (hl : ∀ f, f ∈ l' ↔ f ∈ l ∨ PrunedOf role E d l i V f) :
    PrunedOf role E d l' i' V' f ↔ PrunedOf role E d l i' V' f := by
  have hout (t : Nat) (p : List Nat) (ht : role t = .node d (i' :: p)) : t ∉ l' ↔ t ∉ l := by
    refine not_congr ((hl t).trans (or_iff_left fun hc => ?_))
    obtain ⟨q, hq⟩ := hc.node
    exact hi (List.cons.inj (Role.node.inj (ht.symm.trans hq)).2).1
  have hex (p : List Nat) : (∃ t, t ∉ l' ∧ role t = .node d (i' :: p)) ↔ ∃ t, t ∉ l ∧ role t = .node d (i' :: p) :=
    exists_congr fun t => and_congr_left fun ht => hout t p ht
  unfold PrunedOf
  rw [hex]
  simp only [hex]

theorem Freed.exitLoop (h : Freed d l m m' role) (hm : Paged m role) (hP : PagesIn role l P)
    (hd : role d = .node d []) (hj : j < 512) (hs : slotAddr i j < stop) (hstop : stop ≤ userTop)
    (hfuel : stop / pdSize < i + fuel) :
    ∃ l' m'', m'.exitLoop d stop (i * pdSize) (slotAddr i j) fuel = some m'' ∧ Freed d l' m m'' role ∧
      ∀ f, f ∈ l' ↔ f ∈ l ∨ ∃ i', (∃ k, SlotsOf (slotAddr i j) stop i' k) ∧
        PrunedOf role (m.Bare P) d l i' (SlotsOf (slotAddr i j) stop i') f := by
  have hpd : pdSize = 1073741824 := rfl
  have htop : userTop = 2147483648 := rfl
  induction fuel generalizing i j l m' with
  | zero =>
    rw [slotAddr_eq] at hs
    rw [hpd] at hfuel
    omega
  | succ fuel ih =>
    have hi : i < 256 := by
      rw [slotAddr_eq] at hs
      omega
    obtain ⟨l₁, m₁, hbody, h₁, hmem₁⟩ := h.exitRegion hm hP hd hi hj hs
    have hP₁ : PagesIn role l₁ P := by
      refine hP.tables (d := d) hmem₁ fun f hf => ?_
      obtain ⟨p, hp⟩ := hf.node
      exact ⟨_, hp⟩
    have hself : ∃ k, SlotsOf (slotAddr i j) stop i k := ⟨j, hj, Nat.le_refl _, hs⟩
    rw [exitLoop_succ hbody, slotAddr_region]
    by_cases hgo : slotAddr (i + 1) 0 < stop
    · have hne : slotAddr (i + 1) 0 ≠ 0 := by
        rw [slotAddr_eq]
        omega
      rw [if_pos ⟨hne, hgo⟩]
      have hbase : slotAddr (i + 1) 0 = (i + 1) * pdSize := by rw [slotAddr, Nat.zero_mul, Nat.add_zero]
      obtain ⟨l₂, m₂, hrun, h₂, hmem₂⟩ := ih h₁ hP₁ (show 0 < 512 by decide) hgo
        (by rw [Nat.add_assoc, Nat.add_comm 1]; exact hfuel)
      rw [← hbase] at hrun
      refine ⟨l₂, m₂, hrun, h₂, fun f => ?_⟩
      rw [hmem₂, hmem₁, or_assoc]
      refine or_congr_right ⟨?_, ?_⟩
      · rintro (hf | ⟨i', ⟨k, hk⟩, hf⟩)
        · exact ⟨i, hself, hf⟩
        · obtain ⟨hne, hk⟩ := (slotsOf_next hj).1 hk
          refine ⟨i', ⟨k, hk⟩, ?_⟩
          rw [pruned_congr hne hmem₁] at hf
          rwa [show SlotsOf (slotAddr i j) stop i' = SlotsOf (slotAddr (i + 1) 0) stop i' from
            funext fun k => propext (by rw [slotsOf_next hj, and_iff_right hne])]
      · rintro ⟨i', ⟨k, hk⟩, hf⟩
        by_cases hii : i' = i
        · subst hii
          exact .inl hf
        · refine .inr ⟨i', ⟨k, (slotsOf_next hj).2 ⟨hii, hk⟩⟩, ?_⟩
          rw [pruned_congr hii hmem₁]
          rwa [show SlotsOf (slotAddr (i + 1) 0) stop i' = SlotsOf (slotAddr i j) stop i' from
            funext fun k => propext (by rw [slotsOf_next hj, and_iff_right hii])]
    · rw [if_neg fun hc => hgo hc.2]
      refine ⟨l₁, m₁, rfl, h₁, fun f => ?_⟩
      rw [hmem₁]
      refine or_congr_right ⟨fun hf => ⟨i, hself, hf⟩, ?_⟩
      rintro ⟨i', ⟨k, hk⟩, hf⟩
      by_cases hii : i' = i
      · subst hii
        exact hf
      · have hk' := (slotsOf_next hj).2 ⟨hii, hk⟩
        exact absurd (Nat.lt_of_le_of_lt hk'.2.1 hk'.2.2) hgo

theorem Vma.slots_iff {vma : Vma} : vma.Slots i j ↔ SlotsOf (roundDown vma.vmStart ptSize) vma.vmEnd i j := by
  have hpt : ptSize = 2097152 := rfl
  simp only [Vma.Slots, SlotsOf, roundDown, slotAddr_eq, hpt]
  omega

/-- `exit_range` gives back empty tables, and directory pages. -/
theorem Freed.exitRange_pruned (h : Freed d l m m' role) (hm : Paged m role) (hP : PagesIn role l P)
    (hd : role d = .node d []) (hs : start % pgSize = 0) (hstop : stop % pgSize = 0) (ha : UserAccess start stop) :
    ∃ l' m'', m'.exitRange d start stop = some m'' ∧ Freed d l' m m'' role ∧
      ∀ f, f ∈ l' ↔ f ∈ l ∨ ∃ i, (∃ j, SlotsOf (roundDown start ptSize) stop i j) ∧
        PrunedOf role (m.Bare P) d l i (SlotsOf (roundDown start ptSize) stop i) f := by
  have hpd : pdSize = 1073741824 := rfl
  have hpt : ptSize = 2097152 := rfl
  have hi : roundDown start pdSize = start / pdSize * pdSize := by
    rw [roundDown, hpd]
    omega
  have hj : roundDown start ptSize = slotAddr (start / pdSize) (start / ptSize % 512) := by
    rw [roundDown, slotAddr_eq, hpt, hpd]
    omega
  have hlt : slotAddr (start / pdSize) (start / ptSize % 512) < stop := by
    rw [← hj, roundDown]
    exact Nat.lt_of_le_of_lt (Nat.sub_le ..) ha.2.1
  obtain ⟨l', m'', hrun, h', hmem⟩ := h.exitLoop hm hP hd (Nat.mod_lt _ (by decide)) hlt ha.2.2
    (Nat.lt_add_left _ (Nat.lt_succ_self _))
  rw [← hj, ← hi] at hrun
  rw [← hj] at hmem
  refine ⟨l', m'', ?_, h', hmem⟩
  unfold Mem.exitRange Mem.onRange
  rw [if_pos ⟨⟨hs, hstop⟩, ha⟩, hrun]

/-- Where all pages have been given back, the tables are empty. -/
theorem Freed.exitRange (h : Freed d l m m' role) (hm : Paged m role)
    (he : ∀ v < userVpn, pteValid (m.pteAt d v) → ptePpn (m.pteAt d v) ∈ l) (hd : role d = .node d [])
    (hp : vma.vmStart % pgSize = 0 ∧ vma.vmEnd % pgSize = 0 ∧ UserAccess vma.vmStart vma.vmEnd) :
    ∃ l' m'', m'.exitRange d vma.vmStart vma.vmEnd = some m'' ∧ Freed d l' m m'' role ∧
      ∀ f, f ∈ l' ↔ f ∈ l ∨ ∃ i, (∃ j, vma.Slots i j) ∧ SweptOf role d l i (vma.Slots i) f := by
  have hP : PagesIn role l (· ∈ l) := fun f _ => Iff.rfl
  have hE (i j t : Nat) (ht : role t = .node d [i, j]) : m.Bare (· ∈ l) t := by
    intro k hk hv
    obtain ⟨v, hlt, -, -, hfv⟩ := hm.entry_vpn ht rfl hk
    rw [hfv] at hv ⊢
    exact he v hlt hv
  obtain ⟨l', m'', hrun, h', hmem⟩ := h.exitRange_pruned hm hP hd hp.1 hp.2.1 hp.2.2
  refine ⟨l', m'', hrun, h', fun f => ?_⟩
  have heq (i : Nat) : SlotsOf (roundDown vma.vmStart ptSize) vma.vmEnd i = vma.Slots i :=
    funext fun j => propext Vma.slots_iff.symm
  simp only [hmem, heq, sweptOf_iff (hE _)]

end

end UCore
