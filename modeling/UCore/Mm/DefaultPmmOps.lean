import UCore.Mm.DefaultPmmRuns

namespace UCore
set_option autoImplicit true

section
variable {a : FreeArea} {bs : List Block}

/-- `default_alloc_pages` is first fit: it returns NULL exactly when no block has `n` pages, and otherwise takes
the first pages of the first block that has. -/
theorem default_alloc_first_fit (h : FreeWf a lo hi bs) (hn : 0 < n) :
    ((∃ a', defaultAllocPages a n = some (none, a')) ↔ ∀ b ∈ bs, b.size < n) ∧
    (∀ a', defaultAllocPages a n = some (none, a') → a' = a) ∧
    ((∃ b ∈ bs, n ≤ b.size) → ∃ pre b post a', bs = pre ++ b :: post ∧ n ≤ b.size ∧
      (∀ c ∈ bs, n ≤ c.size → b.head ≤ c.head) ∧ defaultAllocPages a n = some (some b.head, a') ∧
      FreeWf a' lo hi (pre ++ remainder b n ++ post) ∧
      ∀ q, Covers (pre ++ remainder b n ++ post) q ↔ Covers bs q ∧ ¬ (b.head ≤ q ∧ q < b.head + n)) := by
  refine ⟨⟨?_, fun hall => ⟨a, ?_⟩⟩, fun a' ha => (defaultAllocPages_none h hn ha).1, ?_⟩
  · rintro ⟨a', ha⟩
    exact (defaultAllocPages_none h hn ha).2
  · have hfind : bs.find? (fun b => decide (n ≤ b.size)) = none :=
      List.find?_eq_none.2 fun b hb => by simpa using hall b hb
    rw [defaultAllocPages_eq h hn, hfind]
  · rintro ⟨c, hc, hcn⟩
    cases hfind : bs.find? (fun b => decide (n ≤ b.size)) with
    | none =>
      have hno := List.find?_eq_none.1 hfind c hc
      simp only [decide_eq_true_eq] at hno
      exact absurd hcn hno
    | some b =>
      have ha := defaultAllocPages_eq h hn
      rw [hfind] at ha
      obtain ⟨pre, b', post, rfl, hhead, hle, hpre, hwf⟩ := defaultAllocPages_some h hn ha
      have hfirst (c : Block) (hc : c ∈ pre ++ b' :: post) (hcn : n ≤ c.size) : b'.head ≤ c.head := by
        rcases List.mem_append.1 hc with hc | hc
        · exact absurd hcn (Nat.not_le.2 (hpre c hc))
        · cases hc with
          | head => exact Nat.le_refl _
          | tail _ hc =>
            have hbc := (List.pairwise_cons.1 (List.pairwise_append.1 h.separated).2.1).1 c hc
            exact Nat.le_trans (Nat.le_add_right ..) (Nat.le_of_lt hbc)
      have ha' : defaultAllocPages a n = some (some b.head, takeBlock a b.head n) := ha
      rw [← hhead] at ha' hwf
      exact ⟨pre, b', post, _, rfl, hle, hfirst, ha', hwf, fun q => covers_take h.separated hle⟩

/-- Behind the last block the insertion loop adds the new block twice, and the second time behind itself. -/
theorem insertLoop_tail {l : Links PageEntry} {le : PageEntry} (hp : l.Path le (bs.map Block.entry) .freeList)
    (hne : bs ≠ []) (hb : ∀ b ∈ bs, b.head < base) (hf : bs.length + 1 < fuel) :
    ∃ l', insertLoop base l le fuel = some l' ∧ l'.prev (.pageLink base) = .pageLink base ∧
      l'.next (.pageLink base) = .freeList := by
  induction bs generalizing le fuel with
  | nil => exact absurd rfl hne
  | cons b bs ih =>
    obtain ⟨fuel, rfl⟩ : ∃ k, fuel = k + 1 := ⟨fuel - 1, by omega⟩
    have hlt := hb b (List.mem_cons_self ..)
    have hnext : listNext l le = .pageLink b.head := hp.1.1
    rw [insertLoop, hnext]
    dsimp only
    rw [if_neg (by omega)]
    cases bs with
    | cons c bs =>
      have hmore : listNext l (.pageLink b.head) = .pageLink c.head := hp.2.1.1
      rw [if_neg (by rw [hmore]; simp)]
      exact ih hp.2 (by simp) (fun d hd => hb d (List.mem_cons_of_mem _ hd)) (by simp at hf ⊢; omega)
    | nil =>
      have hlast : listNext l (.pageLink b.head) = .freeList := hp.2.1
      have hbb : b.head ≠ base := Nat.ne_of_lt hlt
      rw [if_pos hlast]
      obtain ⟨fuel, rfl⟩ : ∃ k, fuel = k + 2 := ⟨fuel - 2, by simp at hf; omega⟩
      have hlast' : l.next (.pageLink b.head) = .freeList := hlast
      refine ⟨listAdd (listAdd l (.pageLink b.head) (.pageLink base)) (.pageLink base) (.pageLink base), ?_, ?_, ?_⟩
      · simp [insertLoop, listNext, listAdd, listAddAfter, listAdd', Links.setNext, Links.setPrev, hlast', hbb]
      · simp [listAdd, listAddAfter, listAdd', Links.setNext, Links.setPrev]
      · simp [listAdd, listAddAfter, listAdd', Links.setNext, Links.setPrev, hlast']

/-- In a well formed free list no block is its own predecessor. -/
theorem FreeWf.prev_ne (h : FreeWf a lo hi bs) (hlo : lo ≤ p) (hhi : p < hi) (hp : a.pageProperty p = true) :
    a.link.prev (.pageLink p) ≠ .pageLink p := by
  obtain ⟨b, hb, rfl⟩ := (h.flag p hlo hhi).1 hp
  obtain ⟨pre, post, rfl⟩ := List.append_of_mem hb
  have hr := h.ring
  rw [List.map_append, List.map_cons] at hr
  have hprev : a.link.prev (.pageLink b.head) = (pre.map Block.entry).getLastD .freeList := hr.prev_mid
  rw [hprev]
  intro hc
  have hnd := hr.nodup
  rcases pre.eq_nil_or_concat with rfl | ⟨ws, w, rfl⟩
  · cases hc
  · rw [List.concat_eq_append, List.map_append, List.map_cons, List.map_nil, List.getLastD_concat] at hc
    rw [List.concat_eq_append, List.map_append, List.map_cons, List.map_nil, hc] at hnd
    simp [Block.entry, List.nodup_append] at hnd

/-- A run freed above all blocks of a nonempty free list becomes its own predecessor. -/
theorem defaultFreePages_tail (h : FreeWf a lo hi bs) (hn : 0 < n) (hlo : lo ≤ base) (hhi : base + n ≤ hi)
    (hrun : ∀ p, base ≤ p → p < base + n → ¬ Covers bs p) (hne : bs ≠ []) (hb : ∀ b ∈ bs, b.head < base) :
    ∃ a', defaultFreePages a base n = some a' ∧ a'.pageProperty base = true ∧
      a'.link.prev (.pageLink base) = .pageLink base := by
  have hflag : ∀ q, base ≤ q → q < base + n → a.pageReserved q = false ∧ a.pageProperty q = false := by
    intro q hq hq'
    refine ⟨h.unreserved q (by omega) (by omega), ?_⟩
    rw [Bool.eq_false_iff, Ne, h.flag q (by omega) (by omega)]
    rintro ⟨b, hb, rfl⟩
    have hpos := (h.inside b hb).1
    exact hrun b.head hq hq' ⟨b, hb, Nat.le_refl _, by simp only [Block.stop]; omega⟩
  obtain ⟨a₁, ha₁, hl, hnp, -⟩ := resetPages_spec hflag
  have hring := h.ring
  rw [← hl] at hring
  have hlen := h.length_le
  have hloop : ∃ l', insertLoop base a₁.link .freeList (a₁.npage + 2) = some l' ∧
      l'.prev (.pageLink base) = .pageLink base ∧ l'.next (.pageLink base) = .freeList :=
    insertLoop_tail hring.path hne hb (by omega)
  obtain ⟨l, hloop, hprev, hnext⟩ := hloop
  have hempty : ¬ listEmpty a₁.link .freeList = true := by
    rw [listEmpty_iff hring]
    simpa using hne
  have hsmall := h.small
  have huint : uint n = n := uint_of_lt (by omega)
  refine ⟨((((a₁.setProperty base n).setPageProperty base).setNrFree (a₁.nrFree + n)).setLink l), ?_, by simp, hprev⟩
  rw [defaultFreePages, if_neg (by omega), ha₁]
  simp only [Option.bind_eq_bind, Option.bind_some, insertBlock, setNrFree_link, setPageProperty_link,
    setProperty_link, setNrFree_npage, setPageProperty_npage, setProperty_npage, if_neg hempty, hloop,
    setPageProperty_nrFree, setProperty_nrFree]
  have hself : base + ((((a₁.setProperty base n).setPageProperty base).setNrFree (a₁.nrFree + n)).setLink l).property
      base ≠ base := by
    simp [huint]
    omega
  simp only [mergePrev, listPrev, setLink_link, hprev, if_neg hself, mergeNext, listNext, hnext]

/-- `default_free_pages` keeps the free list well formed and adds the run exactly when the list is empty or has a
block above the run. -/
theorem default_free_wf_iff (h : FreeWf a lo hi bs) (hn : 0 < n) (hlo : lo ≤ base) (hhi : base + n ≤ hi)
    (hrun : ∀ p, base ≤ p → p < base + n → ¬ Covers bs p) :
    (∃ a' bs', defaultFreePages a base n = some a' ∧ FreeWf a' lo hi bs' ∧
      ∀ p, Covers bs' p ↔ Covers bs p ∨ base ≤ p ∧ p < base + n) ↔ bs = [] ∨ ∃ c ∈ bs, base < c.head := by
  refine ⟨?_, fun hc => defaultFreePages_wf h hn hlo hhi hrun hc⟩
  rintro ⟨a', bs', hfree, hwf, -⟩
  by_contra hc
  rw [not_or] at hc
  have hb (b : Block) (hbm : b ∈ bs) : b.head < base := by
    have hle : ¬ base < b.head := fun hlt => hc.2 ⟨b, hbm, hlt⟩
    have hpos := (h.inside b hbm).1
    refine Nat.lt_of_le_of_ne (Nat.not_lt.1 hle) fun heq => ?_
    refine hrun base (Nat.le_refl _) (by omega) ⟨b, hbm, Nat.le_of_eq heq, ?_⟩
    simp only [Block.stop]
    omega
  obtain ⟨a₁, ha₁, hp, hprev⟩ := defaultFreePages_tail h hn hlo hhi hrun hc.1 hb
  obtain rfl := Option.some.inj (ha₁.symm.trans hfree)
  exact hwf.prev_ne hlo (by omega) hp hprev

/-- Four pages of which only `p` is free. -/
def onePage (p : Nat) : FreeArea where
  npage := 4
  pages q := if q = p then ⟨0, ⟨false, true⟩, 1⟩ else ⟨0, .zero, 0⟩
  link := listAdd (listInit ⟨id, id⟩ .freeList) .freeList (.pageLink p)
  nrFree := 1

theorem onePage_wf (hp : p < 4) : FreeWf (onePage p) 0 4 [⟨p, 1⟩] where
  ring := listAdd_head (listInit_ring _ _) (by simp)
  inside b hb := by
    obtain rfl := List.mem_singleton.1 hb
    exact ⟨Nat.one_pos, Nat.zero_le _, hp⟩
  property b hb := by
    obtain rfl := List.mem_singleton.1 hb
    simp [FreeArea.property, onePage]
  unreserved q _ _ := by
    simp only [FreeArea.pageReserved, onePage]
    split <;> rfl
  flag q _ _ := by
    by_cases hq : q = p
    · simp [FreeArea.pageProperty, onePage, hq]
    · simp [FreeArea.pageProperty, onePage, hq, PageFlags.zero, Ne.symm hq]
  nrFree := rfl
  bound := Nat.le_refl _
  small := by decide
  separated := List.pairwise_singleton ..

theorem default_free_tail : ¬ ∃ a' bs', defaultFreePages (onePage 0) 3 1 = some a' ∧ FreeWf a' 0 4 bs' ∧
    ∀ p, Covers bs' p ↔ Covers [⟨0, 1⟩] p ∨ 3 ≤ p ∧ p < 3 + 1 := by
  rintro ⟨a', bs', hfree, hwf, -⟩
  have hrun : ∀ p, 3 ≤ p → p < 3 + 1 → ¬ Covers [⟨0, 1⟩] p := by decide
  obtain ⟨a₁, ha₁, hp, hprev⟩ := defaultFreePages_tail (onePage_wf (by decide)) (by decide) (by decide) (by decide)
    hrun (by decide) (by decide)
  obtain rfl := Option.some.inj (ha₁.symm.trans hfree)
  exact hwf.prev_ne (by decide) (by decide) hp hprev

theorem default_free_wf_iff_below : ∃ a' bs', defaultFreePages (onePage 3) 1 2 = some a' ∧ FreeWf a' 0 4 bs' ∧
    ∀ p, Covers bs' p ↔ Covers [⟨3, 1⟩] p ∨ 1 ≤ p ∧ p < 1 + 2 := by
  have hrun : ∀ p, 1 ≤ p → p < 1 + 2 → ¬ Covers [⟨3, 1⟩] p := by decide
  rw [default_free_wf_iff (onePage_wf (by decide)) (by decide) (by decide) (by decide) hrun]
  decide

/-- Six pages of which 1 is out: two pages are taken off the second block, as the first one is too small. -/
theorem default_alloc_first_fit_second : ∃ a a', FreeWf a 0 6 [⟨0, 1⟩, ⟨2, 4⟩] ∧
    defaultAllocPages a 2 = some (some 2, a') ∧ FreeWf a' 0 6 [⟨0, 1⟩, ⟨4, 2⟩] ∧
    ∀ q, Covers [⟨0, 1⟩, ⟨4, 2⟩] q ↔ Covers [⟨0, 1⟩, ⟨2, 4⟩] q ∧ ¬ (2 ≤ q ∧ q < 2 + 2) := by
  have hrun : (sixState.bind (((pmmMachine 0 6).restrict (FreesBelow 0 6)).exec ·
      [.alloc 1, .alloc 1, .free 0 1])).bind (fun s => walkBlocks s.area .freeList (s.area.npage + 1)) =
      some [⟨0, 1⟩, ⟨2, 4⟩] := by decide
  obtain ⟨s, hs, hwalk⟩ := Option.bind_eq_some_iff.1 hrun
  obtain ⟨s₀, hs₀, hexec⟩ := Option.bind_eq_some_iff.1 hs
  obtain ⟨a, ha, rfl⟩ := Option.map_eq_some_iff.1 hs₀
  have hinit : ((pmmMachine 0 6).restrict (FreesBelow 0 6)).Reachable ⟨a, fun _ => false⟩ :=
    .init ⟨sixPages, Nat.le_refl _, fun _ => rfl, ha, rfl⟩
  obtain ⟨⟨bs, hwf, -⟩, -⟩ := pmm_reachable_inv (by decide) (by decide) (hinit.exec hexec)
  have hbs := walkBlocks_eq hwf.ring.path hwf.property (Nat.lt_succ_of_le hwf.length_le)
  obtain rfl : bs = [⟨0, 1⟩, ⟨2, 4⟩] := Option.some.inj (hbs.symm.trans hwalk)
  obtain ⟨pre, b, post, a', hsplit, hle, -, halloc, hwf', hcov⟩ :=
    (default_alloc_first_fit hwf (n := 2) (by decide)).2.2 ⟨⟨2, 4⟩, by simp, by decide⟩
  cases pre with
  | nil =>
    obtain ⟨rfl, -⟩ := List.cons.inj hsplit
    exact absurd hle (by decide)
  | cons c pre =>
    obtain ⟨rfl, hrest⟩ := List.cons.inj hsplit
    cases pre with
    | nil =>
      obtain ⟨rfl, rfl⟩ := List.cons.inj hrest
      exact ⟨s.area, a', hwf, halloc, hwf', hcov⟩
    | cons d pre => simp at hrest

end

end UCore
