import UCore.Lib.Machine
import UCore.Mm.DefaultPmmAlloc
import UCore.Mm.DefaultPmmFree
import Mathlib.Order.Interval.Finset.Nat

namespace UCore
set_option autoImplicit true

/-- The manager together with the pages that are out at its callers. -/
structure PmmState where
  area : FreeArea
  allocated : Nat → Bool

inductive PmmCall where
  | alloc (n : Nat)
  | free (base n : Nat)
  deriving DecidableEq, Repr

/-- Callers ask for at least one page, and give back runs of pages they hold. -/
def PmmState.allowed (s : PmmState) : PmmCall → Prop
  | .alloc n => 0 < n
  | .free base n => 0 < n ∧ ∀ i < n, s.allocated (base + i) = true

instance (s : PmmState) (c : PmmCall) : Decidable (s.allowed c) := by
  cases c with
  | alloc n => exact inferInstanceAs (Decidable (0 < n))
  | free base n =>
    exact inferInstanceAs (Decidable (0 < n ∧ ∀ i < n, s.allocated (base + i) = true))

def PmmState.call (s : PmmState) : PmmCall → Option PmmState
  | .alloc n =>
    match defaultAllocPages s.area n with
    | none => none
    | some (none, a) => some ⟨a, s.allocated⟩
    | some (some p, a) =>
      some ⟨a, fun q => s.allocated q || (decide (p ≤ q) && decide (q < p + n))⟩
  | .free base n =>
    match defaultFreePages s.area base n with
    | none => none
    | some a => some ⟨a, fun q => s.allocated q && !(decide (base ≤ q) && decide (q < base + n))⟩

/-- `page_init` has reserved every page; the manager is then given the run of `N` pages at `base`. -/
def pmmMachine (base N : Nat) : Machine PmmState PmmCall where
  init s := ∃ a : FreeArea, base + N ≤ a.npage ∧ (∀ p, a.pageReserved p = true) ∧
    defaultInitMemmap (defaultInit a) base N = some s.area ∧ s.allocated = fun _ => false
  enabled := PmmState.allowed
  next := PmmState.call

instance (s : PmmState) (c : PmmCall) : Decidable ((pmmMachine base N).enabled s c) :=
  inferInstanceAs (Decidable (s.allowed c))

/-- The walk over `free_list`, as `default_check` makes it. -/
def walkBlocks (a : FreeArea) (le : PageEntry) : Nat → Option (List Block)
  | 0 => none
  | fuel + 1 =>
    match listNext a.link le with
    | .freeList => some []
    | .pageLink p => (walkBlocks a (.pageLink p) fuel).map (⟨p, a.property p⟩ :: ·)

/-- No page is handed out twice and none is lost. -/
structure PmmSafe (base N : Nat) (s : PmmState) : Prop where
  fresh : ∀ n p a, 0 < n → defaultAllocPages s.area n = some (some p, a) →
    ∀ q, p ≤ q → q < p + n → base ≤ q ∧ q < base + N ∧ s.allocated q = false
  partition : ∃ bs, walkBlocks s.area .freeList (s.area.npage + 1) = some bs ∧
    bs.Pairwise (fun b c => ∀ q, ¬ (b.Has q ∧ c.Has q)) ∧
    (∀ q, Covers bs q ∨ s.allocated q = true ↔ base ≤ q ∧ q < base + N) ∧
    ∀ q, ¬ (Covers bs q ∧ s.allocated q = true)
  count : s.area.nrFree =
    ((Finset.Ico base (base + N)).filter (fun q => s.allocated q = false)).card

/-- A freed run lies below some free page, unless no page is free at all. -/
def FreesBelow (base N : Nat) (s : PmmState) : PmmCall → Prop
  | .alloc _ => True
  | .free b _ => (∀ i < N, s.allocated (base + i) = true) ∨
      ∃ i < N, b < base + i ∧ s.allocated (base + i) = false

instance (s : PmmState) (c : PmmCall) : Decidable (FreesBelow base N s c) := by
  cases c with
  | alloc n => exact inferInstanceAs (Decidable True)
  | free b n =>
    exact inferInstanceAs (Decidable ((∀ i < N, s.allocated (base + i) = true) ∨
      ∃ i < N, b < base + i ∧ s.allocated (base + i) = false))

structure PmmInv (base N : Nat) (s : PmmState) : Prop where
  wf : ∃ bs, FreeWf s.area base (base + N) bs ∧
    ∀ q, base ≤ q → q < base + N → (s.allocated q = false ↔ Covers bs q)
  range : ∀ q, s.allocated q = true → base ≤ q ∧ q < base + N

theorem FreeWf.covers_range (h : FreeWf a lo hi bs) (hc : Covers bs q) : lo ≤ q ∧ q < hi := by
  obtain ⟨b, hb, hq⟩ := hc
  have := h.inside b hb
  simp only [Block.Has, Block.stop] at *
  omega

theorem initPages_spec {a : FreeArea} (h : ∀ q, p ≤ q → q < p + n → a.pageReserved q = true) :
    ∃ a', initPages a p n = some a' ∧ a'.link = a.link ∧ a'.npage = a.npage ∧
      a'.nrFree = a.nrFree ∧ ∀ q, p ≤ q → q < p + n →
        a'.pageReserved q = false ∧ a'.pageProperty q = false := by
  induction n generalizing a p with
  | zero => exact ⟨a, rfl, rfl, rfl, rfl, fun q hp hq => absurd hq (by omega)⟩
  | succ n ih =>
    have hp := h p (Nat.le_refl p) (by omega)
    have hother : ∀ q, q ≠ p → (a.setPage p ⟨0, .zero, 0⟩).pageReserved q = a.pageReserved q := by
      intro q hq
      simp [FreeArea.pageReserved, FreeArea.setPage, hq]
    have hkeep : ∀ (n p : Nat) (a a' : FreeArea), initPages a p n = some a' → ∀ q < p,
        a'.pages q = a.pages q := by
      intro n
      induction n with
      | zero =>
        intro p a a' ha q hq
        cases ha
        rfl
      | succ n ih =>
        intro p a a' ha q hq
        rw [initPages] at ha
        split at ha
        · rw [ih (p + 1) _ a' ha q (by omega)]
          simp [FreeArea.setPage, show q ≠ p by omega]
        · cases ha
    obtain ⟨a', ha, hl, hn, hf, hall⟩ := ih (a := a.setPage p ⟨0, .zero, 0⟩) (p := p + 1) (by
      intro q hlo hhi
      rw [hother q (by omega)]
      exact h q (by omega) (by omega))
    refine ⟨a', by rw [initPages, if_pos hp, ha], hl, hn, hf, ?_⟩
    intro q hlo hhi
    by_cases hq : q = p
    · subst q
      have he := hkeep n (p + 1) _ a' ha p (by omega)
      simp [FreeArea.pageReserved, FreeArea.pageProperty, he, FreeArea.setPage, PageFlags.zero]
    · exact hall q (by omega) (by omega)

theorem pmm_init_inv (hN : 0 < N) (hsmall : N < 2 ^ 32) (h : (pmmMachine base N).init s) :
    PmmInv base N s := by
  obtain ⟨a, hnp, hres, hi, hal⟩ := h
  obtain ⟨a', ha, hl, hn, hf, hall⟩ := initPages_spec (a := defaultInit a) (p := base) (n := N)
    (fun q _ _ => hres q)
  have hring : a'.link.Ring .freeList [] := hl ▸ listInit_ring a.link .freeList
  have hfree : a'.nrFree = 0 := hf
  have he : listEmpty a'.link .freeList = true := (listEmpty_iff hring).2 rfl
  have hrep : FreeRep a' base (base + N) ([] ++ []) := by
    refine ⟨hring, by simp, by simp, fun p hp hq => (hall p hp hq).1, ?_, by simpa using hfree,
      ?_, by omega⟩
    · intro p hp hq
      simp [(hall p hp hq).2]
    · rw [hn]
      exact hnp
  have hadd : (listAdd a'.link .freeList (.pageLink base)).Ring .freeList
      (([] ++ (⟨base, N⟩ : Block) :: []).map Block.entry) := listAdd_head hring (by simp)
  have hins := hrep.insert hadd hN (Nat.le_refl _) (Nat.le_refl _) (by simp) (by simpa using hsmall)
  rw [defaultInitMemmap, if_neg (by omega), ha] at hi
  simp only [Option.bind_eq_bind, Option.bind_some, insertBlock, setNrFree_link,
    setPageProperty_link, setProperty_link, he, ↓reduceIte, Option.some.injEq] at hi
  refine ⟨⟨[⟨base, N⟩], ⟨?_, List.pairwise_singleton ..⟩, ?_⟩, ?_⟩
  · rw [← hi]
    exact hins
  · intro q hlo hhi
    simp [hal, Covers, Block.Has, Block.stop, hlo, hhi]
  · intro q hq
    simp [hal] at hq

/-- Cutting the first `n` pages off a block uncovers exactly these pages. -/
theorem covers_take {b : Block} (hs : Separated (pre ++ b :: post)) (hle : n ≤ b.size) :
    Covers (pre ++ remainder b n ++ post) q ↔
      Covers (pre ++ b :: post) q ∧ ¬ (b.head ≤ q ∧ q < b.head + n) := by
  simp only [Separated, List.pairwise_append, List.pairwise_cons, List.mem_cons,
    forall_eq_or_imp] at hs
  obtain ⟨-, ⟨hpost, -⟩, hpre⟩ := hs
  have hrem : Covers (remainder b n) q ↔ b.head + n ≤ q ∧ q < b.stop := by
    simp only [Covers, mem_remainder]
    constructor
    · rintro ⟨c, ⟨hlt, rfl⟩, hq⟩
      simp only [Block.Has, Block.stop] at *
      omega
    · intro hq
      refine ⟨_, ⟨?_, rfl⟩, ?_⟩ <;> simp only [Block.Has, Block.stop] at * <;> omega
  simp only [covers_append, covers_cons, hrem]
  constructor
  · rintro ((⟨c, hc, hq⟩ | hq) | ⟨c, hc, hq⟩)
    · have := (hpre c hc).1
      exact ⟨.inl ⟨c, hc, hq⟩, by simp only [Block.Has, Block.stop] at *; omega⟩
    · exact ⟨.inr (.inl ⟨by omega, hq.2⟩), by omega⟩
    · have := hpost c hc
      exact ⟨.inr (.inr ⟨c, hc, hq⟩), by simp only [Block.Has, Block.stop] at *; omega⟩
  · rintro ⟨hq | hq | hq, hn⟩
    · exact .inl (.inl hq)
    · exact .inl (.inr (by simp only [Block.Has] at hq; omega))
    · exact .inr hq

theorem pmm_alloc_inv (h : PmmInv base N s) (hn : 0 < n) (hc : s.call (.alloc n) = some s') :
    PmmInv base N s' := by
  obtain ⟨⟨bs, hwf, hfree⟩, hrange⟩ := h
  rw [PmmState.call] at hc
  cases ha : defaultAllocPages s.area n with
  | none => simp [ha] at hc
  | some r =>
    obtain ⟨p, a⟩ := r
    cases p with
    | none =>
      simp only [ha, Option.some.injEq] at hc
      subst hc
      obtain ⟨rfl, -⟩ := defaultAllocPages_none hwf hn ha
      exact ⟨⟨bs, hwf, hfree⟩, hrange⟩
    | some p =>
      simp only [ha, Option.some.injEq] at hc
      subst hc
      obtain ⟨pre, b, post, rfl, rfl, hle, -, hwf'⟩ := defaultAllocPages_some hwf hn ha
      have hin := hwf.inside b (by simp)
      have htake := fun q => covers_take (q := q) hwf.separated hle
      refine ⟨⟨_, hwf', ?_⟩, ?_⟩
      · intro q hlo hhi
        rw [htake, ← hfree q hlo hhi, Bool.or_eq_false_iff, Bool.and_eq_false_iff,
          decide_eq_false_iff_not, decide_eq_false_iff_not, not_and_or]
      · intro q hq
        simp only [Bool.or_eq_true, Bool.and_eq_true, decide_eq_true_eq] at hq
        rcases hq with hq | hq
        · exact hrange q hq
        · simp only [Block.stop] at *
          omega

/-- A run of allocated pages lies above every block exactly when it lies above every free page. -/
theorem freesBelow_block {s : PmmState} (h : FreeWf a base (base + N) bs)
    (hfree : ∀ q, base ≤ q → q < base + N → (s.allocated q = false ↔ Covers bs q))
    (hrun : ¬ Covers bs b) (hb : FreesBelow base N s (.free b n)) :
    bs = [] ∨ ∃ c ∈ bs, b < c.head := by
  rcases hb with hall | ⟨i, hi, hbq, hal⟩
  · left
    cases bs with
    | nil => rfl
    | cons c bs =>
      have hin := h.inside c List.mem_cons_self
      have hcov : Covers (c :: bs) c.head :=
        ⟨c, List.mem_cons_self, Nat.le_refl _, by simp only [Block.stop]; omega⟩
      have hr := h.covers_range hcov
      have hal := hall (c.head - base) (by omega)
      rw [Nat.add_sub_cancel' hr.1, ← Bool.not_eq_false, hfree c.head hr.1 hr.2] at hal
      exact absurd hcov hal
  · right
    obtain ⟨c, hc, hcq⟩ := (hfree (base + i) (by omega) (by omega)).1 hal
    refine ⟨c, hc, Nat.lt_of_not_le fun hle => hrun ⟨c, hc, hle, ?_⟩⟩
    have := hcq.2
    omega

theorem pmm_free_call (h : PmmInv base N s) (ha : s.allowed (.free b n))
    (hb : FreesBelow base N s (.free b n)) :
    ∃ s', s.call (.free b n) = some s' ∧ PmmInv base N s' := by
  obtain ⟨⟨bs, hwf, hfree⟩, hrange⟩ := h
  obtain ⟨hn, hall⟩ := ha
  have hal : ∀ q, b ≤ q → q < b + n → s.allocated q = true := by
    intro q hq hq'
    have := hall (q - b) (by omega)
    rwa [Nat.add_sub_cancel' hq] at this
  have hfirst := hrange b (hal b (Nat.le_refl _) (by omega))
  have hlast := hrange (b + n - 1) (hal _ (by omega) (by omega))
  have hrun : ∀ p, b ≤ p → p < b + n → ¬ Covers bs p := by
    intro p hp hp' hc
    have := (hfree p (by omega) (by omega)).2 hc
    rw [hal p hp hp'] at this
    cases this
  have hc := freesBelow_block hwf hfree (hrun b (Nat.le_refl _) (by omega)) hb
  obtain ⟨a, bs', hfp, hwf', hcov⟩ :=
    defaultFreePages_wf hwf hn hfirst.1 (by omega) hrun hc
  refine ⟨_, by rw [PmmState.call, hfp], ⟨bs', hwf', ?_⟩, ?_⟩
  · intro q hlo hhi
    have hf := hfree q hlo hhi
    simp only [hcov, Bool.and_eq_false_iff, hf, Bool.not_eq_false', Bool.and_eq_true,
      decide_eq_true_eq]
  · intro q hq
    simp only [Bool.and_eq_true] at hq
    exact hrange q hq.1

theorem pmm_call_inv (h : PmmInv base N s) (ha : s.allowed c) (hb : FreesBelow base N s c)
    (hc : s.call c = some s') : PmmInv base N s' := by
  cases c with
  | alloc n => exact pmm_alloc_inv h ha hc
  | free b n =>
    obtain ⟨t, ht, hinv⟩ := pmm_free_call h ha hb
    rw [ht] at hc
    cases hc
    exact hinv

/-- Neither a panic nor an endless walk: an allowed call that meets the condition returns. -/
theorem pmm_call_returns (h : PmmInv base N s) (ha : s.allowed c) (hb : FreesBelow base N s c) :
    ∃ s', s.call c = some s' := by
  cases c with
  | alloc n =>
    obtain ⟨⟨bs, hwf, -⟩, -⟩ := h
    rw [PmmState.call, defaultAllocPages_eq hwf ha]
    cases bs.find? (fun b => decide (n ≤ b.size)) with
    | none => exact ⟨_, rfl⟩
    | some b => exact ⟨_, rfl⟩
  | free b n =>
    obtain ⟨t, ht, -⟩ := pmm_free_call h ha hb
    exact ⟨t, ht⟩

theorem walkBlocks_eq {a : FreeArea} {bs : List Block} {le : PageEntry}
    (hp : a.link.Path le (bs.map Block.entry) .freeList)
    (hs : ∀ b ∈ bs, a.property b.head = b.size) (hf : bs.length < fuel) :
    walkBlocks a le fuel = some bs := by
  induction bs generalizing le fuel with
  | nil =>
    cases fuel with
    | zero => simp at hf
    | succ fuel =>
      have hn : listNext a.link le = .freeList := hp.next_eq
      rw [walkBlocks, hn]
  | cons b bs ih =>
    cases fuel with
    | zero => simp at hf
    | succ fuel =>
      have hn : listNext a.link le = .pageLink b.head := hp.next_eq
      have hlen : bs.length < fuel := by simpa using hf
      have hrest := ih hp.2 (fun c hc => hs c (List.mem_cons_of_mem _ hc)) hlen
      rw [walkBlocks, hn]
      simp only [hs b List.mem_cons_self]
      rw [show walkBlocks a (.pageLink b.head) fuel = some bs from hrest]
      rfl

theorem Separated.disjoint (h : Separated bs) :
    bs.Pairwise (fun b c => ∀ q, ¬ (b.Has q ∧ c.Has q)) := by
  refine h.imp ?_
  intro b c hbc q hq
  simp only [Block.Has, Block.stop] at *
  omega

/-- The blocks of a separated list hold as many pages as the set they cover. -/
theorem Separated.card_covers (h : Separated bs) (hin : ∀ b ∈ bs, lo ≤ b.head ∧ b.stop ≤ hi) :
    ((Finset.Ico lo hi).filter (Covers bs)).card = sizes bs := by
  induction bs with
  | nil => simp
  | cons b bs ih =>
    obtain ⟨hb, hs⟩ := List.pairwise_cons.1 h
    have hi' := hin b List.mem_cons_self
    have hsplit : (Finset.Ico lo hi).filter (Covers (b :: bs)) =
        Finset.Ico b.head b.stop ∪ (Finset.Ico lo hi).filter (Covers bs) := by
      ext q
      simp only [Finset.mem_filter, Finset.mem_Ico, Finset.mem_union, covers_cons, Block.Has]
      constructor
      · rintro ⟨hq, hb | hc⟩
        · exact .inl hb
        · exact .inr ⟨hq, hc⟩
      · rintro (hb | ⟨hq, hc⟩)
        · exact ⟨by omega, .inl hb⟩
        · exact ⟨hq, .inr hc⟩
    have hdisj : Disjoint (Finset.Ico b.head b.stop) ((Finset.Ico lo hi).filter (Covers bs)) := by
      rw [Finset.disjoint_left]
      intro q hq hq'
      obtain ⟨c, hc, hcq⟩ := (Finset.mem_filter.1 hq').2
      have := hb c hc
      simp only [Finset.mem_Ico, Block.Has] at hq hcq
      omega
    rw [hsplit, Finset.card_union_of_disjoint hdisj,
      ih hs (fun c hc => hin c (List.mem_cons_of_mem _ hc)), Nat.card_Ico, sizes_cons, Block.stop]
    omega

theorem PmmInv.safe (h : PmmInv base N s) : PmmSafe base N s := by
  obtain ⟨⟨bs, hwf, hfree⟩, hrange⟩ := h
  refine ⟨?_, ⟨bs, ?_, hwf.separated.disjoint, ?_, ?_⟩, ?_⟩
  · intro n p a hn ha q hp hq
    obtain ⟨pre, b, post, rfl, rfl, hle, -, -⟩ := defaultAllocPages_some hwf hn ha
    have hcov : Covers (pre ++ b :: post) q :=
      ⟨b, by simp, hp, by simp only [Block.stop]; omega⟩
    have hr := hwf.covers_range hcov
    exact ⟨hr.1, hr.2, (hfree q hr.1 hr.2).2 hcov⟩
  · exact walkBlocks_eq hwf.ring.path hwf.property (Nat.lt_succ_of_le hwf.length_le)
  · intro q
    constructor
    · rintro (hq | hq)
      · exact hwf.covers_range hq
      · exact hrange q hq
    · rintro ⟨hlo, hhi⟩
      rw [← hfree q hlo hhi]
      cases s.allocated q <;> simp
  · rintro q ⟨hc, hal⟩
    have hr := hrange q hal
    rw [← hfree q hr.1 hr.2, hal] at hc
    cases hc
  · have hcard := hwf.separated.card_covers (fun b hb => (hwf.inside b hb).2)
    rw [hwf.nrFree, ← hcard]
    congr 1
    ext q
    simp only [Finset.mem_filter, Finset.mem_Ico]
    constructor
    · rintro ⟨hq, hc⟩
      exact ⟨hq, (hfree q hq.1 hq.2).2 hc⟩
    · rintro ⟨hq, hc⟩
      exact ⟨hq, (hfree q hq.1 hq.2).1 hc⟩

theorem pmm_reachable_inv (hN : 0 < N) (hsmall : N < 2 ^ 32)
    (h : ((pmmMachine base N).restrict (FreesBelow base N)).Reachable s) : PmmInv base N s :=
  h.restrict_invariant (PmmInv base N) (fun _ => pmm_init_inv hN hsmall)
    (fun _ _ _ => pmm_call_inv)

/-- As long as every freed run lies below some free page, or no page is free, the manager never
fails, hands out no page twice and loses none. -/
theorem default_pmm_safe (hN : 0 < N) (hsmall : N < 2 ^ 32)
    (h : ((pmmMachine base N).restrict (FreesBelow base N)).Reachable s) :
    PmmSafe base N s ∧
      ∀ c, s.allowed c → FreesBelow base N s c → ∃ s', s.call c = some s' := by
  have hinv := pmm_reachable_inv hN hsmall h
  exact ⟨hinv.safe, fun c ha hb => pmm_call_returns hinv ha hb⟩

/-- Six reserved pages, before the manager is set up. -/
def sixPages : FreeArea where
  npage := 6
  pages _ := ⟨0, ⟨true, false⟩, 0⟩
  link := ⟨id, id⟩
  nrFree := 0

def sixState : Option PmmState :=
  (defaultInitMemmap (defaultInit sixPages) 0 6).map fun a => ⟨a, fun _ => false⟩

theorem sixState_reachable (h : sixState = some s) : (pmmMachine 0 6).Reachable s := by
  obtain ⟨a, ha, rfl⟩ := Option.map_eq_some_iff.1 h
  exact .init ⟨sixPages, Nat.le_refl _, fun _ => rfl, ha, rfl⟩

instance (s : PmmState) (c : PmmCall) :
    Decidable (((pmmMachine base N).restrict (FreesBelow base N)).enabled s c) :=
  inferInstanceAs (Decidable (s.allowed c ∧ FreesBelow base N s c))

theorem default_pmm_safe_six : ∃ s, s.allocated 0 = false ∧ s.allocated 1 = true ∧
    PmmSafe 0 6 s := by
  have hrun : (sixState.bind (((pmmMachine 0 6).restrict (FreesBelow 0 6)).exec ·
      [.alloc 3, .alloc 1, .free 0 1, .free 2 2])).map (fun s => (s.allocated 0, s.allocated 1)) =
      some (false, true) := by decide
  obtain ⟨s, hs, hval⟩ := Option.map_eq_some_iff.1 hrun
  obtain ⟨s₀, hs₀, hexec⟩ := Option.bind_eq_some_iff.1 hs
  obtain ⟨a, ha, rfl⟩ := Option.map_eq_some_iff.1 hs₀
  obtain ⟨h0, h1⟩ := Prod.mk.inj hval
  have hinit : ((pmmMachine 0 6).restrict (FreesBelow 0 6)).Reachable ⟨a, fun _ => false⟩ :=
    .init ⟨sixPages, Nat.le_refl _, fun _ => rfl, ha, rfl⟩
  exact ⟨s, h0, h1, (default_pmm_safe (by decide) (by decide) (hinit.exec hexec)).1⟩

/-- The run `[2, 4)` is freed above the free page 0, taken again, and handed out a second time. -/
def twiceRun : List PmmCall :=
  [.alloc 1, .alloc 1, .alloc 2, .alloc 2, .free 0 1, .free 2 2, .alloc 2, .free 4 2]

theorem default_pmm_unsafe : ∃ s, (pmmMachine 0 6).Reachable s ∧ ¬ PmmSafe 0 6 s := by
  have hrun : (sixState.bind ((pmmMachine 0 6).exec · twiceRun)).map (fun s =>
      (s.allocated 2, (defaultAllocPages s.area 2).map Prod.fst)) =
      some (true, some (some 2)) := by decide
  obtain ⟨s, hs, hval⟩ := Option.map_eq_some_iff.1 hrun
  obtain ⟨s₀, hs₀, hexec⟩ := Option.bind_eq_some_iff.1 hs
  obtain ⟨hal, hres⟩ := Prod.mk.inj hval
  obtain ⟨⟨p, a⟩, ha, hp⟩ := Option.map_eq_some_iff.1 hres
  obtain rfl : p = some 2 := hp
  refine ⟨s, (sixState_reachable hs₀).exec hexec, fun hsafe => ?_⟩
  have hfresh := (hsafe.fresh 2 2 a (by decide) ha 2 (Nat.le_refl _) (by decide)).2.2
  rw [hal] at hfresh
  cases hfresh

end UCore
