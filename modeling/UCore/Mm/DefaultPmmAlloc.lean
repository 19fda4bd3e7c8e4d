import UCore.Mm.DefaultPmmSpec

namespace UCore
set_option autoImplicit true

theorem firstFit_eq {a : FreeArea} {bs : List Block} {le : PageEntry}
    (hp : a.link.Path le (bs.map Block.entry) .freeList)
    (hs : ∀ b ∈ bs, a.property b.head = b.size) (hf : bs.length < fuel) :
    firstFit a n le fuel = some ((bs.find? (fun b => decide (n ≤ b.size))).map Block.head) := by
  induction bs generalizing le fuel with
  | nil =>
    cases fuel with
    | zero => simp at hf
    | succ fuel =>
      have hn : listNext a.link le = .freeList := hp.next_eq
      rw [firstFit, hn]
      rfl
  | cons b bs ih =>
    cases fuel with
    | zero => simp at hf
    | succ fuel =>
      have hn : listNext a.link le = .pageLink b.head := hp.next_eq
      have hb := hs b List.mem_cons_self
      rw [firstFit, hn]
      simp only [hb]
      by_cases hle : n ≤ b.size
      · simp [hle]
      · have hlen : bs.length < fuel := by simpa using hf
        have hrest := ih hp.2 (fun c hc => hs c (List.mem_cons_of_mem _ hc)) hlen
        simpa [hle, Block.entry] using hrest

/-- What remains of a block after its first `n` pages are taken. -/
def remainder (b : Block) (n : Nat) : List Block :=
  if n < b.size then [⟨b.head + n, b.size - n⟩] else []

theorem remainder_sizes (b : Block) (h : n ≤ b.size) : sizes (remainder b n) = b.size - n := by
  rw [remainder]
  split
  · simp
  · simp
    omega

theorem mem_remainder {b c : Block} :
    c ∈ remainder b n ↔ n < b.size ∧ c = ⟨b.head + n, b.size - n⟩ := by
  rw [remainder]
  split
  · rename_i h
    simp [h]
  · rename_i h
    simp [h]

/-- The last entry before a block is the list predecessor that the code reads. -/
theorem takeBlock_ring {a : FreeArea} {b : Block}
    (hr : a.link.Ring .freeList ((pre ++ b :: post).map Block.entry))
    (hb : a.property b.head = b.size)
    (hfresh : n < b.size → ∀ c ∈ pre ++ post, c.head ≠ b.head + n) :
    (takeBlock a b.head n).link.Ring .freeList
      ((pre ++ remainder b n ++ post).map Block.entry) := by
  rw [List.map_append, List.map_cons] at hr
  have hd := listDel_mid hr
  have hprev : listPrev a.link (.pageLink b.head) =
      (pre.map Block.entry).getLastD .freeList := hr.prev_mid
  rw [takeBlock, remainder]
  simp only [setLink_property, hb]
  split
  · rename_i hlt
    have hf := fresh_entry (p := b.head + n) (hfresh hlt)
    rw [List.map_append] at hf
    have ha := listAdd_getLastD hd hf
    simpa [hprev, Block.entry, List.map_append] using ha
  · simpa [Block.entry] using hd

theorem takeBlock_property (a : FreeArea) (b : Block) (hn : 0 < n) (hb : a.property b.head = b.size) :
    (takeBlock a b.head n).property p =
      if n < b.size ∧ p = b.head + n then uint (b.size - n) else a.property p := by
  have hne : b.head ≠ b.head + n := by omega
  rw [takeBlock]
  split
  · rename_i h
    have hlt : n < b.size := by simpa [hb] using h
    by_cases hp : p = b.head + n <;> simp [hp, hb, hlt]
  · rename_i h
    have hlt : ¬ n < b.size := by simpa [hb] using h
    simp [hlt]

theorem takeBlock_pageProperty (a : FreeArea) (b : Block) (hb : a.property b.head = b.size) :
    (takeBlock a b.head n).pageProperty p =
      if p = b.head then false else if n < b.size ∧ p = b.head + n then true
      else a.pageProperty p := by
  rw [takeBlock]
  split
  · rename_i h
    have hlt : n < b.size := by simpa [hb] using h
    by_cases hq : p = b.head
    · simp [hq]
    · by_cases hp : p = b.head + n <;> simp [hp, hq, hlt]
  · rename_i h
    have hlt : ¬ n < b.size := by simpa [hb] using h
    by_cases hq : p = b.head <;> simp [hq, hlt]

theorem takeBlock_pageReserved (a : FreeArea) (q n : Nat) :
    (takeBlock a q n).pageReserved p = a.pageReserved p := by
  rw [takeBlock]
  split <;> simp

theorem takeBlock_nrFree (a : FreeArea) (q n : Nat) :
    (takeBlock a q n).nrFree = uint (a.nrFree - n) := by
  rw [takeBlock]
  split <;> rfl

theorem takeBlock_npage (a : FreeArea) (q n : Nat) : (takeBlock a q n).npage = a.npage := by
  rw [takeBlock]
  split <;> rfl

theorem separated_take {b : Block} (hs : Separated (pre ++ b :: post)) :
    Separated (pre ++ remainder b n ++ post) := by
  simp only [Separated, List.pairwise_append, List.pairwise_cons, List.mem_cons,
    forall_eq_or_imp, List.append_assoc] at hs ⊢
  obtain ⟨hpre, ⟨hb, hpost⟩, hx⟩ := hs
  refine ⟨hpre, ⟨?_, hpost, ?_⟩, ?_⟩
  · rw [remainder]
    split <;> simp
  · intro c hc d hd
    obtain ⟨hlt, rfl⟩ := mem_remainder.1 hc
    have := hb d hd
    simp only [Block.stop] at *
    omega
  · intro c hc d hd
    rcases List.mem_append.1 hd with hd | hd
    · obtain ⟨hlt, rfl⟩ := mem_remainder.1 hd
      have := (hx c hc).1
      simp only [Block.stop] at *
      omega
    · exact (hx c hc).2 d hd

/-- Taking the first `n` pages of a block leaves every other block as it was. -/
theorem takeBlock_wf {a : FreeArea} {b : Block} (h : FreeWf a lo hi (pre ++ b :: post)) (hn : 0 < n)
    (hle : n ≤ b.size) :
    FreeWf (takeBlock a b.head n) lo hi (pre ++ remainder b n ++ post) := by
  have hmem : b ∈ pre ++ b :: post := by simp
  have hb := h.property b hmem
  have hin := h.inside b hmem
  have hsmall := h.small
  have hsep := h.separated
  simp only [Separated, List.pairwise_append, List.pairwise_cons, List.mem_cons,
    forall_eq_or_imp] at hsep
  obtain ⟨-, ⟨hpost, -⟩, hpre⟩ := hsep
  have hout : ∀ c ∈ pre ++ post, c.head ≠ b.head ∧ (n < b.size → c.head ≠ b.head + n) := by
    intro c hc
    rcases List.mem_append.1 hc with hc | hc
    · have h1 := (hpre c hc).1
      have h2 := h.inside c (by simp [hc])
      simp only [Block.stop] at *
      omega
    · have h1 := hpost c hc
      simp only [Block.stop] at *
      omega
  have hall : ∀ c ∈ pre ++ remainder b n ++ post,
      c ∈ pre ++ post ∨ n < b.size ∧ c = ⟨b.head + n, b.size - n⟩ := by
    intro c hc
    simp only [List.mem_append, mem_remainder] at hc ⊢
    tauto
  have hsub : ∀ c ∈ pre ++ post, c ∈ pre ++ b :: post := by
    intro c hc
    simp only [List.mem_append, List.mem_cons] at hc ⊢
    tauto
  refine ⟨⟨takeBlock_ring h.ring hb (fun hlt c hc => (hout c hc).2 hlt), ?_, ?_, ?_, ?_, ?_, ?_, ?_⟩,
    separated_take h.separated⟩
  · intro c hc
    rcases hall c hc with hc | ⟨hlt, rfl⟩
    · exact h.inside c (hsub c hc)
    · simp only [Block.stop] at *
      omega
  · intro c hc
    rw [takeBlock_property a b hn hb]
    rcases hall c hc with hc | ⟨hlt, rfl⟩
    · rw [if_neg (fun hh => (hout c hc).2 hh.1 hh.2)]
      exact h.property c (hsub c hc)
    · simp only [hlt, and_self, ↓reduceIte]
      apply uint_of_lt
      simp only [Block.stop] at *
      omega
  · intro p hlo hhi
    rw [takeBlock_pageReserved]
    exact h.unreserved p hlo hhi
  · intro p hlo hhi
    rw [takeBlock_pageProperty a b hb]
    have hf := h.flag p hlo hhi
    by_cases hpb : p = b.head
    · subst p
      simp only [↓reduceIte, Bool.false_eq_true, false_iff, not_exists, not_and]
      intro c hc
      rcases hall c hc with hc | ⟨hlt, rfl⟩
      · exact (hout c hc).1
      · show b.head + n ≠ b.head
        omega
    · by_cases hpn : n < b.size ∧ p = b.head + n
      · rw [if_neg hpb, if_pos hpn]
        simp only [true_iff]
        exact ⟨⟨b.head + n, b.size - n⟩, by simp [mem_remainder, hpn.1], hpn.2.symm⟩
      · simp only [hpb, hpn, ↓reduceIte, hf]
        constructor
        · rintro ⟨c, hc, rfl⟩
          simp only [List.mem_append, List.mem_cons] at hc
          rcases hc with hc | rfl | hc
          · exact ⟨c, by simp [hc], rfl⟩
          · exact absurd rfl hpb
          · exact ⟨c, by simp [hc], rfl⟩
        · rintro ⟨c, hc, rfl⟩
          rcases hall c hc with hc | ⟨hlt, rfl⟩
          · exact ⟨c, hsub c hc, rfl⟩
          · exact absurd ⟨hlt, rfl⟩ hpn
  · rw [takeBlock_nrFree, h.nrFree]
    have hle' := sizes_le h.separated (fun b hb => (h.inside b hb).2)
    simp only [sizes_append, sizes_cons, remainder_sizes b hle] at *
    rw [uint_of_lt] <;> omega
  · rw [takeBlock_npage]
    exact h.bound
  · exact hsmall

/-- `default_alloc_pages` is first fit on a well formed list. -/
theorem defaultAllocPages_eq (h : FreeWf a lo hi bs) (hn : 0 < n) :
    defaultAllocPages a n = some (match bs.find? (fun b => decide (n ≤ b.size)) with
      | none => (none, a)
      | some b => (some b.head, takeBlock a b.head n)) := by
  rw [defaultAllocPages, if_neg (by omega)]
  have hw : firstFit a n .freeList (a.npage + 1) =
      some ((bs.find? (fun b => decide (n ≤ b.size))).map Block.head) :=
    firstFit_eq h.ring.path h.property (Nat.lt_succ_of_le h.length_le)
  cases hfind : bs.find? (fun b => decide (n ≤ b.size)) with
  | none =>
    split
    · rfl
    · simp [hw, hfind]
  | some b =>
    have hmem := List.mem_of_find?_eq_some hfind
    have hsize : n ≤ b.size := by simpa using List.find?_some hfind
    have hle := size_le_sizes hmem
    have hnr := h.nrFree
    rw [if_neg (by omega)]
    simp [hw, hfind]

/-- A found block splits the list, and what is taken was free. -/
theorem defaultAllocPages_some (h : FreeWf a lo hi bs) (hn : 0 < n)
    (ha : defaultAllocPages a n = some (some p, a')) :
    ∃ pre b post, bs = pre ++ b :: post ∧ b.head = p ∧ n ≤ b.size ∧ (∀ c ∈ pre, c.size < n) ∧
      FreeWf a' lo hi (pre ++ remainder b n ++ post) := by
  rw [defaultAllocPages_eq h hn] at ha
  cases hfind : bs.find? (fun b => decide (n ≤ b.size)) with
  | none => simp [hfind] at ha
  | some b =>
    simp only [hfind, Option.some.injEq, Prod.mk.injEq] at ha
    obtain ⟨rfl, rfl⟩ := ha
    obtain ⟨hb, pre, post, rfl, hpre⟩ := List.find?_eq_some_iff_append.1 hfind
    have hle : n ≤ b.size := by simpa using hb
    exact ⟨pre, b, post, rfl, rfl, hle, by simpa using hpre, takeBlock_wf h hn hle⟩

theorem defaultAllocPages_none (h : FreeWf a lo hi bs) (hn : 0 < n)
    (ha : defaultAllocPages a n = some (none, a')) : a' = a ∧ ∀ b ∈ bs, b.size < n := by
  rw [defaultAllocPages_eq h hn] at ha
  cases hfind : bs.find? (fun b => decide (n ≤ b.size)) with
  | none =>
    simp only [hfind, Option.some.injEq, Prod.mk.injEq, true_and] at ha
    exact ⟨ha.symm, by simpa using List.find?_eq_none.1 hfind⟩
  | some b => simp [hfind] at ha

end UCore
