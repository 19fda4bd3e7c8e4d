import UCore.Mm.DefaultPmmSpec

namespace UCore
set_option autoImplicit true

/-- The first loop of `default_free_pages` succeeds on allocated pages and changes no free block. -/
theorem resetPages_spec {a : FreeArea}
    (h : ∀ q, p ≤ q → q < p + n → a.pageReserved q = false ∧ a.pageProperty q = false) :
    ∃ a', resetPages a p n = some a' ∧ a'.link = a.link ∧ a'.npage = a.npage ∧
      a'.nrFree = a.nrFree ∧ a'.property = a.property ∧ a'.pageReserved = a.pageReserved ∧
      a'.pageProperty = a.pageProperty := by
  induction n generalizing a p with
  | zero => exact ⟨a, rfl, rfl, rfl, rfl, rfl, rfl, rfl⟩
  | succ n ih =>
    obtain ⟨hres, hprop⟩ := h p (Nat.le_refl p) (by omega)
    have hstep : resetPages a p (n + 1) =
        resetPages (a.setPage p { a.pages p with ref := 0, flags := .zero }) (p + 1) n := by
      simp [resetPages, hres, hprop]
    have h1 : (a.setPage p { a.pages p with ref := 0, flags := .zero }).pageReserved =
        a.pageReserved := by
      funext q
      by_cases hq : q = p
      · subst q
        simp [FreeArea.pageReserved, FreeArea.setPage, PageFlags.zero, ← hres]
      · simp [FreeArea.pageReserved, FreeArea.setPage, hq]
    have h2 : (a.setPage p { a.pages p with ref := 0, flags := .zero }).pageProperty =
        a.pageProperty := by
      funext q
      by_cases hq : q = p
      · subst q
        simp [FreeArea.pageProperty, FreeArea.setPage, PageFlags.zero, ← hprop]
      · simp [FreeArea.pageProperty, FreeArea.setPage, hq]
    have h3 : (a.setPage p { a.pages p with ref := 0, flags := .zero }).property = a.property := by
      funext q
      by_cases hq : q = p
      · subst q
        simp [FreeArea.property, FreeArea.setPage]
      · simp [FreeArea.property, FreeArea.setPage, hq]
    obtain ⟨a', ha, hl, hn, hf, hs, hr, hp⟩ := ih (p := p + 1)
      (a := a.setPage p { a.pages p with ref := 0, flags := .zero }) (by
        intro q hlo hhi
        rw [h1, h2]
        exact h q (by omega) (by omega))
    exact ⟨a', hstep.trans ha, hl, hn, hf, hs.trans h3, hr.trans h1, hp.trans h2⟩

theorem FreeRep.congr {a a' : FreeArea} (h : FreeRep a lo hi bs) (hl : a'.link = a.link)
    (hn : a'.npage = a.npage) (hf : a'.nrFree = a.nrFree) (hs : a'.property = a.property)
    (hr : a'.pageReserved = a.pageReserved) (hp : a'.pageProperty = a.pageProperty) :
    FreeRep a' lo hi bs where
  ring := hl ▸ h.ring
  inside := h.inside
  property := hs ▸ h.property
  unreserved := hr ▸ h.unreserved
  flag := hp ▸ h.flag
  nrFree := hf ▸ h.nrFree
  bound := hn ▸ h.bound
  small := h.small

/-- The insertion loop finds the first block above `base`, when there is one. -/
theorem insertLoop_eq {l : Links PageEntry} {b : Block} {le : PageEntry}
    (hp : l.Path le ((pre ++ b :: post).map Block.entry) .freeList)
    (hpre : ∀ c ∈ pre, ¬ base < c.head) (hb : base < b.head) (hf : pre.length < fuel) :
    insertLoop base l le fuel = some (listAddBefore l b.entry (.pageLink base)) := by
  induction pre generalizing le fuel with
  | nil =>
    cases fuel with
    | zero => simp at hf
    | succ fuel =>
      have hn : listNext l le = .pageLink b.head := hp.next_eq
      rw [insertLoop, hn]
      simp only [hb, ↓reduceIte]
      rfl
  | cons c pre ih =>
    cases fuel with
    | zero => simp at hf
    | succ fuel =>
      have hn : listNext l le = .pageLink c.head := hp.next_eq
      have hc : ¬ base < c.head := hpre c List.mem_cons_self
      have hrest : l.Path c.entry ((pre ++ b :: post).map Block.entry) .freeList := hp.2
      have hnext : listNext l (.pageLink c.head) ≠ .freeList := by
        have he : listNext l (.pageLink c.head) = _ := hrest.next_eq
        rw [he]
        cases pre <;> simp [Block.entry]
      rw [insertLoop, hn]
      simp only [hc, ↓reduceIte, hnext]
      exact ih hrest (fun d hd => hpre d (List.mem_cons_of_mem _ hd)) (by simpa using hf)

/-- A new block joins the representation once its links are spliced in. -/
theorem FreeRep.insert {a : FreeArea} {l : Links PageEntry} (h : FreeRep a lo hi (pre ++ post))
    (hr : l.Ring .freeList ((pre ++ ⟨base, n⟩ :: post).map Block.entry)) (hn : 0 < n)
    (hlo : lo ≤ base) (hhi : base + n ≤ hi) (hnew : ∀ b ∈ pre ++ post, b.head ≠ base)
    (hsum : sizes (pre ++ post) + n < 2 ^ 32) :
    FreeRep ((((a.setProperty base n).setPageProperty base).setNrFree (a.nrFree + n)).setLink l)
      lo hi (pre ++ ⟨base, n⟩ :: post) := by
  have hsmall := h.small
  have hnr := h.nrFree
  have hmem : ∀ b, b ∈ pre ++ ⟨base, n⟩ :: post ↔ b = ⟨base, n⟩ ∨ b ∈ pre ++ post := by
    intro b
    simp only [List.mem_append, List.mem_cons]
    tauto
  refine ⟨hr, ?_, ?_, ?_, ?_, ?_, h.bound, hsmall⟩
  · intro b hb
    rcases (hmem b).1 hb with rfl | hb
    · exact ⟨hn, hlo, hhi⟩
    · exact h.inside b hb
  · intro b hb
    rcases (hmem b).1 hb with rfl | hb
    · simp only [setLink_property, setNrFree_property, setPageProperty_property,
        setProperty_property, ↓reduceIte]
      exact uint_of_lt (by omega)
    · simp [hnew b hb, h.property b hb]
  · intro p hp hq
    simpa using h.unreserved p hp hq
  · intro p hp hq
    have hf := h.flag p hp hq
    simp only [setLink_pageProperty, setNrFree_pageProperty, setPageProperty_pageProperty,
      setProperty_pageProperty]
    by_cases he : p = base
    · simp only [he, ↓reduceIte, true_iff]
      exact ⟨⟨base, n⟩, (hmem _).2 (.inl rfl), rfl⟩
    · simp only [he, ↓reduceIte, hf]
      constructor
      · rintro ⟨b, hb, rfl⟩
        exact ⟨b, (hmem b).2 (.inr hb), rfl⟩
      · rintro ⟨b, hb, rfl⟩
        rcases (hmem b).1 hb with rfl | hb
        · exact absurd rfl he
        · exact ⟨b, hb, rfl⟩
  · simp only [setLink_nrFree, setNrFree_nrFree, hnr, sizes_append, sizes_cons] at *
    rw [uint_of_lt] <;> omega

/-- Absorbing a block into the one it touches from above. -/
theorem FreeRep.merge {a : FreeArea} {b c : Block} (h : FreeRep a lo hi (pre ++ b :: c :: post))
    (ht : b.stop = c.head) :
    FreeRep (((a.setProperty b.head (b.size + c.size)).clearPageProperty c.head).setLink
      (listDel a.link c.entry)) lo hi (pre ++ ⟨b.head, b.size + c.size⟩ :: post) := by
  have hnd := h.heads_nodup
  have hsmall := h.small
  have hb := h.inside b (by simp)
  have hc := h.inside c (by simp)
  simp only [Block.stop] at *
  have hne : ∀ d ∈ pre ++ post, d.head ≠ b.head ∧ d.head ≠ c.head := by
    simp only [List.map_append, List.map_cons, List.nodup_append, List.nodup_cons, List.mem_cons,
      List.mem_map, forall_eq_or_imp, not_or, not_exists, not_and] at hnd
    obtain ⟨-, ⟨⟨-, hb'⟩, hc', -⟩, hpre⟩ := hnd
    intro d hd
    rcases List.mem_append.1 hd with hd | hd
    · have := hpre d.head ⟨d, hd, rfl⟩
      exact ⟨this.1, this.2.1⟩
    · exact ⟨hb' d hd, hc' d hd⟩
  have hmem : ∀ d, d ∈ pre ++ ⟨b.head, b.size + c.size⟩ :: post ↔
      d = ⟨b.head, b.size + c.size⟩ ∨ d ∈ pre ++ post := by
    intro d
    simp only [List.mem_append, List.mem_cons]
    tauto
  have hsub : ∀ d ∈ pre ++ post, d ∈ pre ++ b :: c :: post := by
    intro d hd
    simp only [List.mem_append, List.mem_cons] at hd ⊢
    tauto
  refine ⟨?_, ?_, ?_, ?_, ?_, ?_, h.bound, hsmall⟩
  · have hr := h.ring
    rw [List.map_append, List.map_cons, List.map_cons, List.append_cons] at hr
    have hd := listDel_mid hr
    simpa [Block.entry] using hd
  · intro d hd
    rcases (hmem d).1 hd with rfl | hd
    · simp only [Block.stop]
      omega
    · exact h.inside d (hsub d hd)
  · intro d hd
    rcases (hmem d).1 hd with rfl | hd
    · simp only [setLink_property, clearPageProperty_property, setProperty_property, ↓reduceIte]
      exact uint_of_lt (by omega)
    · simp [(hne d hd).1, h.property d (hsub d hd)]
  · intro p hp hq
    simpa using h.unreserved p hp hq
  · intro p hp hq
    have hf := h.flag p hp hq
    simp only [setLink_pageProperty, clearPageProperty_pageProperty, setProperty_pageProperty]
    by_cases he : p = c.head
    · simp only [he, ↓reduceIte, Bool.false_eq_true, false_iff, not_exists, not_and]
      intro d hd
      rcases (hmem d).1 hd with rfl | hd
      · simp only
        omega
      · exact (hne d hd).2
    · simp only [he, ↓reduceIte, hf]
      constructor
      · rintro ⟨d, hd, rfl⟩
        simp only [List.mem_append, List.mem_cons] at hd
        rcases hd with hd | rfl | rfl | hd
        · exact ⟨d, by simp [hd], rfl⟩
        · exact ⟨_, (hmem _).2 (.inl rfl), rfl⟩
        · exact absurd rfl he
        · exact ⟨d, by simp [hd], rfl⟩
      · rintro ⟨d, hd, rfl⟩
        rcases (hmem d).1 hd with rfl | hd
        · exact ⟨b, by simp, rfl⟩
        · exact ⟨d, hsub d hd, rfl⟩
  · have hnr := h.nrFree
    simp only [setLink_nrFree, clearPageProperty_nrFree, setProperty_nrFree, hnr, sizes_append,
      sizes_cons]
    omega

/-- The lower merge ends with one block that stops where the freed run stops. -/
theorem mergePrev_spec {a : FreeArea} (h : FreeRep a lo hi (pre ++ ⟨base, n⟩ :: post))
    (hs : Separated pre) (hpre : ∀ c ∈ pre, c.stop ≤ base) :
    ∃ a' pre' b, mergePrev a base = (b.head, a') ∧ FreeRep a' lo hi (pre' ++ b :: post) ∧
      b.stop = base + n ∧ Separated pre' ∧ (∀ c ∈ pre', c.stop < b.head) ∧
      ∀ p, Covers (pre' ++ [b]) p ↔ Covers pre p ∨ base ≤ p ∧ p < base + n := by
  have hr := h.ring
  rw [List.map_append, List.map_cons] at hr
  have hprev : listPrev a.link (.pageLink base) = (pre.map Block.entry).getLastD .freeList :=
    hr.prev_mid
  rcases pre.eq_nil_or_concat with rfl | ⟨pre', c, rfl⟩
  · refine ⟨a, [], ⟨base, n⟩, ?_, h, rfl, List.Pairwise.nil, by simp, ?_⟩
    · rw [mergePrev, hprev]
      rfl
    · simp [Block.Has, Block.stop]
  · rw [List.concat_eq_append] at *
    simp only [List.map_append, List.map_cons, List.map_nil, List.getLastD_concat] at hprev
    obtain ⟨hs', -, hlast⟩ := List.pairwise_append.1 hs
    have hlt : ∀ d ∈ pre', d.stop < c.head := fun d hd => hlast d hd c (by simp)
    have hc : c.stop ≤ base := hpre c (by simp)
    have hpc := h.property c (by simp)
    have hpb : a.property base = n := h.property ⟨base, n⟩ (by simp)
    rw [List.append_assoc, List.cons_append, List.nil_append] at h
    by_cases ht : c.stop = base
    · have hm := h.merge ht
      refine ⟨_, pre', ⟨c.head, c.size + n⟩, ?_, hm, ?_, hs', hlt, ?_⟩
      · have ht' : c.head + c.size = base := ht
        rw [mergePrev, hprev]
        simp only [Block.entry, hpc, ht', ↓reduceIte, hpb, clearPageProperty_link,
          setProperty_link]
      · simp only [Block.stop] at *
        omega
      · intro p
        simp only [covers_append, covers_cons, covers_nil, or_false, Block.Has, Block.stop] at *
        rw [or_assoc]
        apply or_congr_right
        omega
    · refine ⟨a, pre' ++ [c], ⟨base, n⟩, ?_, by simpa using h, rfl, hs, ?_, ?_⟩
      · have ht' : ¬ c.head + c.size = base := ht
        rw [mergePrev, hprev]
        simp only [Block.entry, hpc, ht', ↓reduceIte]
      · intro d hd
        have h1 := hpre d hd
        rcases List.mem_append.1 hd with hd | hd
        · have := hlt d hd
          simp only [Block.stop] at *
          omega
        · obtain rfl : d = c := by simpa using hd
          exact Nat.lt_of_le_of_ne h1 ht
      · intro p
        simp [Block.Has, Block.stop, or_assoc]

/-- The upper merge completes the coalescing. -/
theorem mergeNext_spec {a : FreeArea} {b : Block} (h : FreeRep a lo hi (pre ++ b :: post))
    (hs : Separated pre) (hpre : ∀ c ∈ pre, c.stop < b.head) (hs' : Separated post)
    (hpost : ∀ c ∈ post, b.stop ≤ c.head) :
    ∃ bs, FreeWf (mergeNext a b.head) lo hi bs ∧
      ∀ p, Covers bs p ↔ Covers (pre ++ [b]) p ∨ Covers post p := by
  have hr := h.ring
  rw [List.map_append, List.map_cons] at hr
  have hnext : listNext a.link (.pageLink b.head) = (post.map Block.entry).headD .freeList :=
    hr.next_mid
  have hsb : ∀ c : Block, c.head = b.head → ∀ d ∈ pre, d.stop < c.head := by
    intro c hc d hd
    exact hc ▸ hpre d hd
  cases post with
  | nil =>
    refine ⟨pre ++ [b], ⟨?_, ?_⟩, by simp⟩
    · rw [mergeNext, hnext]
      exact h
    · refine List.pairwise_append.2 ⟨hs, List.pairwise_singleton .., ?_⟩
      intro d hd c hc
      exact hsb c (by simp_all) d hd
  | cons c post =>
    have hpb := h.property b (by simp)
    have hpc := h.property c (by simp)
    obtain ⟨hc, hs''⟩ := List.pairwise_cons.1 hs'
    have hbc : b.stop ≤ c.head := hpost c List.mem_cons_self
    have hcpos := (h.inside c (by simp)).1
    by_cases ht : b.stop = c.head
    · have hm := h.merge ht
      refine ⟨pre ++ ⟨b.head, b.size + c.size⟩ :: post, ⟨?_, ?_⟩, ?_⟩
      · have ht' : b.head + b.size = c.head := ht
        have he : mergeNext a b.head = ((a.setProperty b.head (b.size + c.size)).clearPageProperty
            c.head).setLink (listDel a.link c.entry) := by
          rw [mergeNext, hnext]
          simp only [List.map_cons, List.headD_cons, Block.entry, hpb, ht', ↓reduceIte, hpc,
            clearPageProperty_link, setProperty_link]
        exact he ▸ hm
      · refine List.pairwise_append.2 ⟨hs, List.pairwise_cons.2 ⟨?_, hs''⟩, ?_⟩
        · intro d hd
          have := hc d hd
          simp only [Block.stop] at *
          omega
        · intro d hd e he
          rcases List.mem_cons.1 he with rfl | he
          · exact hpre d hd
          · have h1 := hpre d hd
            have h2 := hc e he
            simp only [Block.stop] at *
            omega
      · intro p
        simp only [covers_append, covers_cons, covers_nil, or_false, Block.Has, Block.stop,
          or_assoc] at *
        apply or_congr_right
        rw [← or_assoc]
        apply or_congr_left
        omega
    · refine ⟨pre ++ b :: c :: post, ⟨?_, ?_⟩, by simp [or_assoc]⟩
      · have ht' : ¬ b.head + b.size = c.head := ht
        have he : mergeNext a b.head = a := by
          rw [mergeNext, hnext]
          simp only [List.map_cons, List.headD_cons, Block.entry, hpb, ht', ↓reduceIte]
        exact he.symm ▸ h
      · have hlt : b.stop < c.head := Nat.lt_of_le_of_ne hbc ht
        refine List.pairwise_append.2 ⟨hs, List.pairwise_cons.2 ⟨?_, hs'⟩, ?_⟩
        · intro d hd
          rcases List.mem_cons.1 hd with rfl | hd
          · exact hlt
          · have := hc d hd
            simp only [Block.stop] at *
            omega
        · intro d hd e he
          have h1 := hpre d hd
          rcases List.mem_cons.1 he with rfl | he
          · exact h1
          · have h2 : b.stop ≤ e.head := hpost e he
            simp only [Block.stop] at *
            omega

/-- A run of pages that no block covers lies between two neighbouring blocks. -/
theorem separated_split {bs : List Block} (hs : Separated bs) (hpos : ∀ b ∈ bs, 0 < b.size)
    (hn : 0 < n) (hrun : ∀ p, base ≤ p → p < base + n → ¬ Covers bs p) :
    ∃ pre post, bs = pre ++ post ∧ (∀ c ∈ pre, c.stop ≤ base) ∧
      ∀ c ∈ post, base + n ≤ c.head := by
  induction bs with
  | nil => exact ⟨[], [], rfl, by simp, by simp⟩
  | cons b bs ih =>
    obtain ⟨hb, hs'⟩ := List.pairwise_cons.1 hs
    have hbpos := hpos b List.mem_cons_self
    have hfree : ¬ b.Has base := fun hh =>
      hrun base (Nat.le_refl _) (by omega) (covers_cons.2 (.inl hh))
    have hhead : base ≤ b.head → ¬ b.head < base + n := fun hge hlt =>
      hrun b.head hge hlt (covers_cons.2 (.inl ⟨Nat.le_refl _, by simp only [Block.stop]; omega⟩))
    by_cases hbase : b.head ≤ base
    · obtain ⟨pre, post, rfl, hpre, hpost⟩ := ih hs'
        (fun c hc => hpos c (List.mem_cons_of_mem _ hc))
        (fun p hp hq hc => hrun p hp hq (covers_cons.2 (.inr hc)))
      refine ⟨b :: pre, post, rfl, ?_, hpost⟩
      intro c hc
      rcases List.mem_cons.1 hc with rfl | hc
      · simp only [Block.Has, Block.stop] at *
        omega
      · exact hpre c hc
    · refine ⟨[], b :: bs, rfl, by simp, ?_⟩
      intro c hc
      rcases List.mem_cons.1 hc with rfl | hc
      · omega
      · have := hb c hc
        simp only [Block.stop] at *
        omega

/-- Linking keeps the ring in order whenever the free list is empty or reaches above `base`. -/
theorem insertBlock_ring {a : FreeArea} (n : Nat) (hr : a.link.Ring .freeList ((pre ++ post).map Block.entry))
    (hpre : ∀ c ∈ pre, c.head < base) (hpost : ∀ c ∈ post, base < c.head)
    (hlen : (pre ++ post).length ≤ a.npage) (hc : pre ++ post = [] ∨ ∃ c ∈ pre ++ post, base < c.head) :
    ∃ l, insertBlock a base = some (a.setLink l) ∧
      l.Ring .freeList ((pre ++ ⟨base, n⟩ :: post).map Block.entry) := by
  have hf : PageEntry.pageLink base ∉ PageEntry.freeList :: (pre ++ post).map Block.entry := by
    refine fresh_entry fun c hc hh => ?_
    rcases List.mem_append.1 hc with hc | hc
    · exact absurd (hpre c hc) (by omega)
    · exact absurd (hpost c hc) (by omega)
  cases post with
  | nil =>
    rw [List.append_nil] at *
    have hnil : pre = [] := by
      rcases hc with hc | ⟨c, hc, hlt⟩
      · exact hc
      · exact absurd (hpre c hc) (by omega)
    subst hnil
    have he : listEmpty a.link .freeList = true := (listEmpty_iff hr).2 rfl
    refine ⟨_, ?_, listAdd_head hr hf⟩
    rw [insertBlock, if_pos he]
    rfl
  | cons b post =>
    have he : ¬ listEmpty a.link .freeList = true := by
      rw [listEmpty_iff hr]
      simp
    have hfuel : pre.length < a.npage + 2 := by
      simp only [List.length_append] at hlen
      omega
    have hloop := insertLoop_eq hr.path (fun c hc => Nat.not_lt.2 (Nat.le_of_lt (hpre c hc)))
      (hpost b List.mem_cons_self) hfuel
    rw [List.map_append, List.map_cons] at hr hf
    refine ⟨_, ?_, by simpa [Block.entry] using listAddBefore_mid hr hf⟩
    rw [insertBlock, if_neg he, hloop]
    rfl

/-- Freeing a run of allocated pages adds exactly that run, unless the run lies above every block of
a nonempty free list. -/
theorem defaultFreePages_wf {a : FreeArea} (h : FreeWf a lo hi bs) (hn : 0 < n) (hlo : lo ≤ base)
    (hhi : base + n ≤ hi) (hrun : ∀ p, base ≤ p → p < base + n → ¬ Covers bs p)
    (hc : bs = [] ∨ ∃ c ∈ bs, base < c.head) :
    ∃ a' bs', defaultFreePages a base n = some a' ∧ FreeWf a' lo hi bs' ∧
      ∀ p, Covers bs' p ↔ Covers bs p ∨ base ≤ p ∧ p < base + n := by
  have hpos : ∀ b ∈ bs, 0 < b.size := fun b hb => (h.inside b hb).1
  obtain ⟨pre, post, rfl, hpre, hpost⟩ := separated_split h.separated hpos hn hrun
  obtain ⟨hsp, hsq, -⟩ := List.pairwise_append.1 h.separated
  have hhead : ∀ c ∈ pre, c.head < base := by
    intro c hc
    have h1 := hpre c hc
    have h2 := hpos c (by simp [hc])
    simp only [Block.stop] at h1
    omega
  have hpost' : ∀ c ∈ post, base < c.head := fun c hc => by
    have := hpost c hc
    omega
  -- the pages of the run carry no flag, since the flagged pages are heads of free blocks
  have hflag : ∀ q, base ≤ q → q < base + n → a.pageReserved q = false ∧ a.pageProperty q = false := by
    intro q hq hq'
    refine ⟨h.unreserved q (by omega) (by omega), ?_⟩
    rw [Bool.eq_false_iff, Ne, h.flag q (by omega) (by omega)]
    rintro ⟨b, hb, rfl⟩
    have := hpos b hb
    exact hrun b.head hq hq' ⟨b, hb, Nat.le_refl _, by simp only [Block.stop]; omega⟩
  obtain ⟨a₁, ha₁, hl, hnp, hnf, hs, hrs, hpp⟩ := resetPages_spec hflag
  have hrep : FreeRep a₁ lo hi (pre ++ post) := h.toFreeRep.congr hl hnp hnf hs hrs hpp
  have hlen : (pre ++ post).length ≤ a₁.npage := hnp ▸ h.length_le
  obtain ⟨l, hins, hring⟩ := insertBlock_ring n
    (a := ((a₁.setProperty base n).setPageProperty base).setNrFree (a₁.nrFree + n))
    hrep.ring hhead hpost' hlen hc
  have hsum : sizes (pre ++ post) + n ≤ hi - lo := by
    have hs1 : sizes pre ≤ base - lo :=
      sizes_le hsp (fun c hc => ⟨(h.inside c (by simp [hc])).2.1, hpre c hc⟩)
    have hs2 : sizes post ≤ hi - (base + n) :=
      sizes_le hsq (fun c hc => ⟨hpost c hc, (h.inside c (by simp [hc])).2.2⟩)
    rw [sizes_append]
    omega
  have hsmall := h.small
  have hrep₂ := hrep.insert hring hn hlo hhi (by
    intro c hc hh
    rcases List.mem_append.1 hc with hc | hc
    · exact absurd (hhead c hc) (by omega)
    · exact absurd (hpost' c hc) (by omega)) (by omega)
  obtain ⟨a₃, pre', b, hmp, hrep₃, hstop, hsp', hlt, hcov⟩ := mergePrev_spec hrep₂ hsp hpre
  obtain ⟨bs', hwf, hcov'⟩ := mergeNext_spec hrep₃ hsp' hlt hsq (by
    intro c hc
    rw [hstop]
    exact hpost c hc)
  refine ⟨mergeNext a₃ b.head, bs', ?_, hwf, ?_⟩
  · rw [defaultFreePages, if_neg (by omega), ha₁]
    simp only [Option.bind_eq_bind, Option.bind_some, setPageProperty_nrFree,
      setProperty_nrFree, hins, hmp]
  · intro p
    rw [hcov', hcov, covers_append]
    tauto

end UCore
