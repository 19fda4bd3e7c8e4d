import UCore.Mm.DefaultPmmRuns
import UCore.Mm.KmallocRuns
import UCore.Process.PagingSys

namespace UCore
set_option autoImplicit true

/-- `default_pmm` and the heap of `kmalloc`, with the sizes of the blocks that the heap will be asked for. -/
structure Allocators where
  pmm : PmmState
  heap : SlobState
  sizes : Nat → Nat

namespace Allocators

/-- `alloc_pages` without swapping. `default_alloc_pages` asserts that it is asked for a page at least. -/
def allocPages (s : Allocators) (n : Nat) : Option Nat × Allocators :=
  if n = 0 then (none, s)
  else ((defaultAllocPages s.pmm.area n).bind Prod.fst, { s with pmm := (s.pmm.call (.alloc n)).getD s.pmm })

/-- `kmalloc` of the next size. Where the heap needs a page, it is the one that `alloc_pages` returns. -/
def kmalloc (s : Allocators) : Option Nat × Allocators :=
  let page := (s.allocPages 1).1.map page2kva
  match UCore.kmalloc s.heap.heap (s.sizes 0) [page] none with
  | none => (none, s)
  | some (r, _, rs) =>
    (r, {
      pmm := if rs = [] then (s.allocPages 1).2.pmm else s.pmm
      heap := (s.heap.call (.kmalloc (s.sizes 0) page none)).getD s.heap
      sizes := fun i => s.sizes (i + 1) })

/-- `kfree` of a block that is in use. -/
def kfree (s : Allocators) (p : Nat) : Allocators :=
  if p ∈ s.heap.smalls.map SmallChunk.ptr then { s with heap := (s.heap.call (.kfree p)).getD s.heap } else s

def free (base N : Nat) (s : Allocators) (f : Nat) : Prop := base ≤ f ∧ f < base + N ∧ s.pmm.allocated f = false

def arena (s : Allocators) (f : Nat) : Prop := page2kva f ∈ s.heap.heap.pages

def live (s : Allocators) (p : Nat) : Prop := p ∈ s.heap.smalls.map SmallChunk.ptr

/-- The free list is sound, and so is the heap. Its pages are allocated ones, and its static unit is below them all. -/
structure Sound (base N : Nat) (s : Allocators) : Prop where
  pool : 0x80200 ≤ base ∧ base + N ≤ npage
  pmm : PmmInv base N s.pmm
  heap : ∃ L recs, SlobInv s.heap L recs
  bigs : s.heap.bigs = []
  unit : s.heap.heap.arena + slobUnit < page2kva base
  pages : ∀ q ∈ s.heap.heap.pages, ∃ f, q = page2kva f ∧ s.pmm.allocated f = true
  sizes : ∀ i, 1 ≤ s.sizes i ∧ s.sizes i < pageSize - 2 * slobUnit

/-- The calls of `free_pages` after which `default_pmm` goes on. -/
def Freeable (base N : Nat) (s : Allocators) (p n : Nat) : Prop :=
  s.pmm.allowed (.free p n) ∧ FreesBelow base N s.pmm (.free p n) ∧ ∀ i < n, page2kva (p + i) ∉ s.heap.heap.pages

instance (s : Allocators) : Decidable (s.Freeable base N p n) := inferInstanceAs (Decidable (_ ∧ _ ∧ _))

end Allocators

/-- What `alloc_pages` does. -/
inductive PageAnswer (base N : Nat) (s : Allocators) (n : Nat) : Option Nat → Allocators → Prop where
  | refused : PageAnswer base N s n none s
  | given (p : Nat) (t : PmmState) (run : ∀ f, p ≤ f → f < p + n → s.free base N f)
      (rest : ∀ f, t.allocated f = false ↔ s.pmm.allocated f = false ∧ ¬ (p ≤ f ∧ f < p + n)) :
      PageAnswer base N s n (some p) { s with pmm := t }

/-- What `kmalloc` does: a new block, and the heap may have taken a free page. -/
structure BlockAnswer (base N : Nat) (s : Allocators) (r : Option Nat) (t : Allocators) : Prop where
  sound : t.Sound base N
  frames : ∀ f, t.free base N f ∨ t.arena f ↔ s.free base N f ∨ s.arena f
  arena : ∀ f, s.arena f → t.arena f
  fresh : ∀ p, r = some p → ¬ s.live p
  live : ∀ p, t.live p ↔ s.live p ∨ r = some p

/-- The heap under `kmalloc`, for which `rs` are the answers of `alloc_pages` that it leaves. -/
structure HeapAnswer (s : Allocators) (r : Option Nat) (rs : List (Option Nat)) (u : SlobState) : Prop where
  run : kmalloc s.heap.heap (s.sizes 0) [(s.allocPages 1).1.map page2kva] none = some (r, u.heap, rs)
  inv : ∃ L recs, SlobInv u L recs
  bigs : u.bigs = s.heap.bigs
  blocks : u.smalls.map SmallChunk.ptr = r.toList ++ s.heap.smalls.map SmallChunk.ptr
  pages : u.heap.pages = (if rs = [] then ((s.allocPages 1).1.map page2kva).toList else []) ++ s.heap.heap.pages
  arena : u.heap.arena = s.heap.heap.arena
  state : s.kmalloc = (r, ⟨if rs = [] then (s.allocPages 1).2.pmm else s.pmm, u, fun i => s.sizes (i + 1)⟩)

section
variable {base N bootPgdir n p f : Nat} {s t : Allocators}

namespace Allocators.Sound

theorem allocPages (h : s.Sound base N) (n : Nat) :
    PageAnswer base N s n (s.allocPages n).1 (s.allocPages n).2 ∧ (s.allocPages n).2.Sound base N := by
  unfold Allocators.allocPages
  split
  · exact ⟨.refused, h⟩
  · rename_i hn
    have hn : 0 < n := Nat.pos_of_ne_zero hn
    obtain ⟨t, ht⟩ := pmm_call_returns h.pmm (c := .alloc n) hn trivial
    have hinv := pmm_alloc_inv h.pmm hn ht
    rw [ht, Option.getD_some]
    rw [PmmState.call] at ht
    cases ha : defaultAllocPages s.pmm.area n with
    | none =>
      rw [ha] at ht
      cases ht
    | some r =>
      obtain ⟨r, a⟩ := r
      rw [ha] at ht
      cases r with
      | none =>
        cases ht
        obtain ⟨bs, hwf, -⟩ := h.pmm.wf
        obtain ⟨rfl, -⟩ := defaultAllocPages_none hwf hn ha
        exact ⟨.refused, h⟩
      | some p =>
        cases ht
        have hfresh := h.pmm.safe.fresh n p a hn ha
        refine ⟨.given p _ hfresh fun f => by simp, h.pool, hinv, h.heap, h.bigs, h.unit, fun q hq => ?_, h.sizes⟩
        obtain ⟨f, rfl, hal⟩ := h.pages q hq
        exact ⟨f, rfl, by simp [hal]⟩

theorem free_arena (h : s.Sound base N) (hf : s.free base N f) : ¬ s.arena f := by
  intro ha
  obtain ⟨g, hg, hal⟩ := h.pages _ ha
  obtain rfl := page2kva_inj hg
  rw [hf.2.2] at hal
  cases hal

/-- A free page is one that the heap may take. -/
theorem freshPage (h : s.Sound base N) (hf : s.free base N f) : s.heap.FreshPage (page2kva f) := by
  have hunit := h.unit
  have hle : base * pgSize ≤ f * pgSize := Nat.mul_le_mul_right _ hf.1
  refine ⟨?_, ?_, .inl ?_, fun q hq => ?_, fun b hb => ?_⟩
  · unfold page2kva vaPaOffset kernBase
    omega
  · unfold page2kva vaPaOffset kernBase pgSize pageSize
    omega
  · simp only [Seg.stop, pageSeg, page2kva, slobUnit] at *
    omega
  · obtain ⟨g, rfl, hal⟩ := h.pages q hq
    have hne : f ≠ g := by
      rintro rfl
      rw [hf.2.2] at hal
      cases hal
    simp only [Seg.Disjoint, Seg.stop, pageSeg, page2kva, pgSize]
    omega
  · rw [h.bigs] at hb
    cases hb

/-- The heap may take a free page, and otherwise only its own state changes. -/
theorem took (h : s.Sound base N) (hpmm : PmmInv base N t.pmm) (hheap : ∃ L recs, SlobInv t.heap L recs)
    (hbigs : t.heap.bigs = []) (harena : t.heap.heap.arena = s.heap.heap.arena)
    (hsizes : ∀ i, 1 ≤ t.sizes i ∧ t.sizes i < pageSize - 2 * slobUnit)
    (hpage : t.pmm = s.pmm ∧ t.heap.heap.pages = s.heap.heap.pages ∨
      ∃ p, s.free base N p ∧ t.heap.heap.pages = page2kva p :: s.heap.heap.pages ∧
        ∀ f, t.pmm.allocated f = false ↔ s.pmm.allocated f = false ∧ f ≠ p) :
    t.Sound base N ∧ (∀ f, t.free base N f ∨ t.arena f ↔ s.free base N f ∨ s.arena f) ∧
      ∀ f, s.arena f → t.arena f := by
  rcases hpage with ⟨hp, hq⟩ | ⟨p, hp, hq, hal⟩
  · refine ⟨⟨h.pool, hpmm, hheap, hbigs, ?_, ?_, hsizes⟩, fun f => ?_, fun f => ?_⟩
    · rw [harena]
      exact h.unit
    · rw [hp, hq]
      exact h.pages
    · unfold Allocators.free Allocators.arena
      rw [hp, hq]
    · unfold Allocators.arena
      rw [hq]
      exact id
  · have hmem (f : Nat) : t.arena f ↔ f = p ∨ s.arena f := by
      unfold Allocators.arena
      rw [hq, List.mem_cons]
      exact or_congr_left ⟨page2kva_inj, congrArg _⟩
    refine ⟨⟨h.pool, hpmm, hheap, hbigs, ?_, ?_, hsizes⟩, fun f => ?_, fun f hf => (hmem f).2 (.inr hf)⟩
    · rw [harena]
      exact h.unit
    · intro q hqm
      rw [hq] at hqm
      have hold (f : Nat) (hf : f = p ∨ s.pmm.allocated f = true) : t.pmm.allocated f = true := by
        rw [← Bool.not_eq_false, hal]
        rintro ⟨hf', hne⟩
        rcases hf with hf | hf
        · exact hne hf
        · rw [hf'] at hf
          cases hf
      rcases List.mem_cons.1 hqm with rfl | hqm
      · exact ⟨p, rfl, hold p (.inl rfl)⟩
      · obtain ⟨f, rfl, hf⟩ := h.pages q hqm
        exact ⟨f, rfl, hold f (.inr hf)⟩
    · rw [hmem]
      unfold Allocators.free
      rw [hal]
      by_cases hf : f = p
      · rw [hf]
        exact iff_of_true (.inr (.inl rfl)) (.inl hp)
      · simp [hf]

theorem heapAnswer (h : s.Sound base N) : ∃ r rs u, HeapAnswer s r rs u := by
  have hfresh : ∀ q, (s.allocPages 1).1.map page2kva = some q → s.heap.FreshPage q := by
    intro q hq
    obtain ⟨p, hp, rfl⟩ := Option.map_eq_some_iff.1 hq
    have hans := (h.allocPages 1).1
    rw [hp] at hans
    generalize (s.allocPages 1).2 = t at hans
    cases hans with
    | given p t run rest => exact h.freshPage (run p le_rfl (Nat.lt_succ_self p))
  obtain ⟨L, recs, hi⟩ := h.heap
  obtain ⟨h1, hsz⟩ := h.sizes 0
  have hlt : s.sizes 0 < pageSize - slobUnit := hsz.trans_le (Nat.sub_le_sub_left (by decide) _)
  have ha : s.heap.allowed (.kmalloc (s.sizes 0) ((s.allocPages 1).1.map page2kva) none) :=
    ⟨h1, hsz.trans (by decide), .inl hsz, fun q hq => hfresh q (Option.mem_toList.1 hq), by simp⟩
  obtain ⟨r, h', rs, hk, -, u, L', recs', hc, hi'⟩ := hi.kmalloc ha
  obtain ⟨hpages, harena⟩ := hi.kmalloc_pages h1 hsz hfresh hk
  have hstate : s.kmalloc =
      (r, ⟨if rs = [] then (s.allocPages 1).2.pmm else s.pmm, u, fun i => s.sizes (i + 1)⟩) := by
    unfold Allocators.kmalloc
    dsimp only
    rw [hk, hc, Option.getD_some]
  rw [SlobState.call, hk] at hc
  cases r with
  | none =>
    cases hc
    exact ⟨none, rs, _, hk, ⟨L', recs', hi'⟩, rfl, rfl, hpages, harena, hstate⟩
  | some q =>
    dsimp only at hc
    rw [if_pos hlt] at hc
    cases hc
    exact ⟨some q, rs, _, hk, ⟨L', recs', hi'⟩, rfl, rfl, hpages, harena, hstate⟩

theorem kmalloc (h : s.Sound base N) : BlockAnswer base N s s.kmalloc.1 s.kmalloc.2 := by
  obtain ⟨r, rs, u, ha⟩ := h.heapAnswer
  obtain ⟨hans, ht⟩ := h.allocPages 1
  have hpages := ha.pages
  rw [ha.state]
  dsimp only
  generalize s.allocPages 1 = a at hans ht hpages ⊢
  obtain ⟨page, t⟩ := a
  have htook : (if rs = [] then t.pmm else s.pmm) = s.pmm ∧ u.heap.pages = s.heap.heap.pages ∨
      ∃ p, s.free base N p ∧ u.heap.pages = page2kva p :: s.heap.heap.pages ∧
        ∀ f, (if rs = [] then t.pmm else s.pmm).allocated f = false ↔ s.pmm.allocated f = false ∧ f ≠ p := by
    rw [hpages]
    by_cases hrs : rs = []
    · rw [if_pos hrs, if_pos hrs]
      cases hans with
      | refused => exact .inl ⟨rfl, rfl⟩
      | given p t run rest =>
        refine .inr ⟨p, run p le_rfl (Nat.lt_succ_self p), rfl, fun f => (rest f).trans (and_congr_right fun _ => ?_)⟩
        omega
    · rw [if_neg hrs, if_neg hrs]
      exact .inl ⟨rfl, rfl⟩
  have hpmm : PmmInv base N (if rs = [] then t.pmm else s.pmm) := by
    split
    · exact ht.pmm
    · exact h.pmm
  obtain ⟨hs, hframes, hkeep⟩ := h.took (t := ⟨_, u, fun i => s.sizes (i + 1)⟩) hpmm ha.inv (ha.bigs.trans h.bigs) ha.arena
    (fun i => h.sizes (i + 1)) htook
  obtain ⟨L, recs, hi⟩ := ha.inv
  have hnd := hi.ptr_nodup
  rw [ha.blocks] at hnd
  refine ⟨hs, hframes, hkeep, fun q hq hl => ?_, fun q => ?_⟩
  · rw [hq] at hnd
    exact (List.nodup_cons.1 hnd).1 hl
  · unfold Allocators.live
    rw [ha.blocks, List.mem_append, Option.mem_toList, or_comm]

theorem kfree (h : s.Sound base N) (p : Nat) : (s.kfree p).Sound base N ∧ (s.kfree p).pmm = s.pmm ∧
    (∀ f, (s.kfree p).arena f ↔ s.arena f) ∧ ∀ q, (s.kfree p).live q ↔ s.live q ∧ q ≠ p := by
  unfold Allocators.kfree
  split
  · rename_i hp
    obtain ⟨c, hc, rfl⟩ := List.mem_map.1 hp
    obtain ⟨L, recs, hi⟩ := h.heap
    obtain ⟨s', L', hcall, hi', hpages, harena, hsmalls, hbigs⟩ := hi.kfree_small hc
    rw [hcall, Option.getD_some]
    refine ⟨⟨h.pool, h.pmm, ⟨L', recs, hi'⟩, hbigs.trans h.bigs, ?_, ?_, h.sizes⟩, rfl, fun f => ?_, fun q => ?_⟩
    · dsimp only
      rw [harena]
      exact h.unit
    · dsimp only
      rw [hpages]
      exact h.pages
    · unfold Allocators.arena
      dsimp only
      rw [hpages]
    · have herase : s'.smalls.map SmallChunk.ptr = (s.heap.smalls.map SmallChunk.ptr).erase c.ptr := by
        rw [hsmalls, List.erase_eq_eraseP, List.eraseP_map]
        congr 2
        funext d
        simp [eq_comm, beq_eq_decide]
      unfold Allocators.live
      dsimp only
      rw [herase, hi.ptr_nodup.mem_erase_iff, and_comm]
  · rename_i hp
    refine ⟨h, rfl, fun _ => Iff.rfl, fun q => (and_iff_left_of_imp fun hq => ?_).symm⟩
    rintro rfl
    exact hp hq

theorem freePages (h : s.Sound base N) (hf : s.Freeable base N p n) :
    ∃ t, s.pmm.call (.free p n) = some t ∧ ({ s with pmm := t } : Allocators).Sound base N ∧
      ∀ f, ({ s with pmm := t } : Allocators).free base N f ↔ s.free base N f ∨ p ≤ f ∧ f < p + n := by
  obtain ⟨ha, hb, hheap⟩ := hf
  obtain ⟨t, ht, hinv⟩ := pmm_free_call h.pmm ha hb
  have hal (f : Nat) : t.allocated f = (s.pmm.allocated f && !(decide (p ≤ f) && decide (f < p + n))) := by
    rw [PmmState.call] at ht
    split at ht
    · cases ht
    · cases ht
      rfl
  have hrun (f : Nat) (h₁ : p ≤ f) (h₂ : f < p + n) : s.pmm.allocated f = true := by
    have := ha.2 (f - p) (by omega)
    rwa [Nat.add_sub_cancel' h₁] at this
  refine ⟨t, ht, ⟨h.pool, hinv, h.heap, h.bigs, h.unit, fun q hq => ?_, h.sizes⟩, fun f => ?_⟩
  · obtain ⟨f, rfl, hf⟩ := h.pages q hq
    refine ⟨f, rfl, ?_⟩
    rw [hal, hf]
    have hout : ¬ (p ≤ f ∧ f < p + n) := fun hc =>
      hheap (f - p) (by omega) (by rwa [Nat.add_sub_cancel' hc.1])
    simp only [Bool.true_and, Bool.not_eq_true', Bool.and_eq_false_iff, decide_eq_false_iff_not]
    omega
  · unfold Allocators.free
    dsimp only
    rw [hal]
    constructor
    · rintro ⟨h₁, h₂, h₃⟩
      by_cases hc : p ≤ f ∧ f < p + n
      · exact .inr hc
      · refine .inl ⟨h₁, h₂, ?_⟩
        simpa [hc] using h₃
    · rintro (⟨h₁, h₂, h₃⟩ | hc)
      · exact ⟨h₁, h₂, by simp [h₃]⟩
      · obtain ⟨h₁, h₂⟩ := h.pmm.range f (hrun f hc.1 hc.2)
        exact ⟨h₁, h₂, by simp [hc]⟩

end Allocators.Sound

/-- The allocators, up to the first call of `free_pages` that `default_pmm` may not survive. From then on nothing is
handed out, and there are only the sets of pages and blocks. -/
inductive DefaultState (base N : Nat) where
  | running (s : Allocators) (sound : s.Sound base N)
  | stopped (free arena live : Nat → Prop) (bound : ∀ f, free f → 0x80200 ≤ f ∧ f < npage ∧ ¬ arena f)

namespace DefaultState

def free : DefaultState base N → Nat → Prop
  | running s _ => s.free base N
  | stopped free _ _ _ => free

def arena : DefaultState base N → Nat → Prop
  | running s _ => s.arena
  | stopped _ arena _ _ => arena

def live : DefaultState base N → Nat → Prop
  | running s _ => s.live
  | stopped _ _ live _ => live

theorem free_bound (t : DefaultState base N) (hf : t.free f) : 0x80200 ≤ f ∧ f < npage ∧ ¬ t.arena f := by
  cases t with
  | running s h => exact ⟨h.pool.1.trans hf.1, hf.2.1.trans_le h.pool.2, h.free_arena hf⟩
  | stopped free arena live bound => exact bound f hf

def allocPages (t : DefaultState base N) (n : Nat) : Option Nat × DefaultState base N :=
  match t with
  | running s h => ((s.allocPages n).1, running (s.allocPages n).2 (h.allocPages n).2)
  | stopped .. => (none, t)

/-- The run is freed, and the manager stopped. -/
def stop (t : DefaultState base N) (p n : Nat) : DefaultState base N :=
  stopped (fun f => t.free f ∨ (p ≤ f ∧ f < p + n) ∧ 0x80200 ≤ f ∧ f < npage ∧ ¬ t.arena f) t.arena t.live
    fun _ hf => hf.elim t.free_bound And.right

def freePages (t : DefaultState base N) (p n : Nat) : DefaultState base N :=
  match t with
  | running s h =>
    if hf : s.Freeable base N p n then
      running { s with pmm := (s.pmm.call (.free p n)).getD s.pmm } (by
        obtain ⟨u, hu, hs, -⟩ := h.freePages hf
        rw [hu]
        exact hs)
    else t.stop p n
  | stopped .. => t.stop p n

def kmalloc (t : DefaultState base N) : Option Nat × DefaultState base N :=
  match t with
  | running s h => (s.kmalloc.1, running s.kmalloc.2 h.kmalloc.sound)
  | stopped .. => (none, t)

def kfree (t : DefaultState base N) (p : Nat) : DefaultState base N :=
  match t with
  | running s h => running (s.kfree p) (h.kfree p).1
  | stopped free arena live bound => stopped free arena (fun q => live q ∧ q ≠ p) bound

theorem of_answer (ha : PageAnswer base N s n r u) (h : s.Sound base N) (hu : u.Sound base N) :
    (r, running u hu) = (none, running s h) ∨ ∃ p v, (r, running u hu) = (some p, v) ∧
      (∀ f, p ≤ f → f < p + n → s.free base N f) ∧ (∀ f, v.free f ↔ s.free base N f ∧ ¬ (p ≤ f ∧ f < p + n)) ∧
      v.arena = s.arena ∧ v.live = s.live := by
  cases ha with
  | refused => exact .inl rfl
  | given p t run rest =>
    refine .inr ⟨p, _, rfl, run, fun f => ?_, rfl, rfl⟩
    show base ≤ f ∧ f < base + N ∧ t.allocated f = false ↔ (base ≤ f ∧ f < base + N ∧ _) ∧ _
    rw [rest, and_assoc, and_assoc]

theorem allocPages_cases (t : DefaultState base N) (n : Nat) : t.allocPages n = (none, t) ∨
    ∃ p u, t.allocPages n = (some p, u) ∧ (∀ f, p ≤ f → f < p + n → t.free f) ∧
      (∀ f, u.free f ↔ t.free f ∧ ¬ (p ≤ f ∧ f < p + n)) ∧ u.arena = t.arena ∧ u.live = t.live := by
  cases t with
  | running s h => exact of_answer (h.allocPages n).1 h (h.allocPages n).2
  | stopped => exact .inl rfl

theorem stop_free (t : DefaultState base N)
    (hp : ∀ f, p ≤ f → f < p + n → 0x80200 ≤ f ∧ f < npage ∧ ¬ t.free f ∧ ¬ t.arena f) :
    (t.stop p n).free f ↔ t.free f ∨ p ≤ f ∧ f < p + n := by
  refine or_congr_right (and_iff_left_of_imp fun hf => ?_)
  obtain ⟨h₁, h₂, -, h₃⟩ := hp f hf.1 hf.2
  exact ⟨h₁, h₂, h₃⟩

theorem freePages_free (t : DefaultState base N)
    (hp : ∀ f, p ≤ f → f < p + n → 0x80200 ≤ f ∧ f < npage ∧ ¬ t.free f ∧ ¬ t.arena f) :
    (t.freePages p n).free f ↔ t.free f ∨ p ≤ f ∧ f < p + n := by
  cases t with
  | running s h =>
    unfold freePages
    dsimp only
    split
    · rename_i hf
      obtain ⟨u, hu, -, hfree⟩ := h.freePages hf
      show ({ s with pmm := (s.pmm.call (.free p n)).getD s.pmm } : Allocators).free base N f ↔ _
      rw [hu]
      exact hfree f
    · exact stop_free _ hp
  | stopped => exact stop_free _ hp

theorem freePages_rest (t : DefaultState base N) : (t.freePages p n).arena = t.arena ∧ (t.freePages p n).live = t.live := by
  cases t with
  | running s h =>
    unfold freePages
    dsimp only
    split <;> exact ⟨rfl, rfl⟩
  | stopped => exact ⟨rfl, rfl⟩

theorem kmalloc_answer {t u : DefaultState base N} (h : t.kmalloc = (r, u)) :
    (∀ f, u.free f ∨ u.arena f ↔ t.free f ∨ t.arena f) ∧ (∀ f, t.arena f → u.arena f) ∧
      (∀ p, r = some p → ¬ t.live p) ∧ ∀ p, u.live p ↔ t.live p ∨ r = some p := by
  cases t with
  | running s hs =>
    cases h
    have ha := hs.kmalloc
    exact ⟨ha.frames, ha.arena, ha.fresh, ha.live⟩
  | stopped =>
    cases h
    exact ⟨fun _ => Iff.rfl, fun _ => id, by simp, by simp⟩

theorem kfree_rest (t : DefaultState base N) :
    (t.kfree p).free = t.free ∧ (t.kfree p).arena = t.arena ∧ ∀ q, (t.kfree p).live q ↔ t.live q ∧ q ≠ p := by
  cases t with
  | running s h =>
    obtain ⟨-, hpmm, harena, hlive⟩ := h.kfree p
    refine ⟨funext fun f => ?_, funext fun f => propext (harena f), hlive⟩
    show (s.kfree p).free base N f = s.free base N f
    unfold Allocators.free
    rw [hpmm]
  | stopped => exact ⟨rfl, rfl, fun _ => Iff.rfl⟩

end DefaultState

/-- `default_pmm` and `kmalloc` as the memory management uses them. -/
def defaultSys (base N bootPgdir : Nat) : PhysSys where
  σ := DefaultState base N
  bootPgdir := bootPgdir
  free := DefaultState.free
  arena := DefaultState.arena
  live := DefaultState.live
  allocPages := DefaultState.allocPages
  freePages := DefaultState.freePages
  kmalloc := DefaultState.kmalloc
  kfree := DefaultState.kfree
  free_bound hf := (DefaultState.free_bound _ hf).imp_right And.left
  free_arena hf := (DefaultState.free_bound _ hf).2.2
  allocPages_none h := by
    rcases DefaultState.allocPages_cases _ _ with ha | ⟨p, u, ha, -⟩ <;> rw [ha] at h <;> cases h
    rfl
  allocPages_some h h₁ h₂ := by
    rcases DefaultState.allocPages_cases _ _ with ha | ⟨p, u, ha, hrun, -⟩ <;> rw [ha] at h <;> cases h
    exact hrun _ h₁ h₂
  allocPages_free h := by
    rcases DefaultState.allocPages_cases _ _ with ha | ⟨p, u, ha, -, hfree, -⟩ <;> rw [ha] at h <;> cases h
    exact hfree _
  allocPages_arena h := by
    rcases DefaultState.allocPages_cases _ _ with ha | ⟨p, u, ha, -, -, harena, -⟩ <;> rw [ha] at h <;> cases h
    · rfl
    · exact harena
  allocPages_live h := by
    rcases DefaultState.allocPages_cases _ _ with ha | ⟨p, u, ha, -, -, -, hlive⟩ <;> rw [ha] at h <;> cases h
    · rfl
    · exact hlive
  freePages_free := DefaultState.freePages_free _
  freePages_arena := (DefaultState.freePages_rest _).1
  freePages_live := (DefaultState.freePages_rest _).2
  kmalloc_free h := (DefaultState.kmalloc_answer h).1 _
  kmalloc_arena h := (DefaultState.kmalloc_answer h).2.1 _
  kmalloc_fresh h := (DefaultState.kmalloc_answer h).2.2.1 _ rfl
  kmalloc_live h := (DefaultState.kmalloc_answer h).2.2.2 _
  kfree_free := (DefaultState.kfree_rest _).1
  kfree_arena := (DefaultState.kfree_rest _).2.1
  kfree_live := (DefaultState.kfree_rest _).2.2 _

/-- As long as the manager runs, the calls are those of the code. -/
theorem running_allocPages (h : s.Sound base N) (hn : 0 < n) : ∃ r t, ∃ ht : t.Sound base N,
    (defaultSys base N bootPgdir).allocPages (.running s h) n = (r, .running t ht) ∧
      defaultAllocPages s.pmm.area n = some (r, t.pmm.area) ∧ t.heap = s.heap := by
  refine ⟨_, _, (h.allocPages n).2, rfl, ?_⟩
  unfold Allocators.allocPages
  rw [if_neg hn.ne']
  obtain ⟨t, ht⟩ := pmm_call_returns h.pmm (c := .alloc n) hn trivial
  rw [ht, Option.getD_some]
  rw [PmmState.call] at ht
  cases ha : defaultAllocPages s.pmm.area n with
  | none =>
    rw [ha] at ht
    cases ht
  | some r =>
    obtain ⟨r, a⟩ := r
    rw [ha] at ht
    cases r <;> cases ht <;> exact ⟨rfl, rfl⟩

theorem running_freePages (h : s.Sound base N) (ha : s.pmm.allowed (.free p n))
    (hb : FreesBelow base N s.pmm (.free p n)) (hh : ∀ i < n, ¬ s.arena (p + i)) : ∃ t, ∃ ht : t.Sound base N,
    (defaultSys base N bootPgdir).freePages (.running s h) p n = .running t ht ∧
      defaultFreePages s.pmm.area p n = some t.pmm.area ∧ t.heap = s.heap := by
  obtain ⟨t, ht, hs, -⟩ := h.freePages ⟨ha, hb, hh⟩
  refine ⟨{ s with pmm := t }, hs, ?_, ?_, rfl⟩
  · change (DefaultState.running s h).freePages p n = _
    unfold DefaultState.freePages
    dsimp only
    rw [dif_pos ⟨ha, hb, hh⟩]
    congr 2
    rw [ht, Option.getD_some]
  · rw [PmmState.call] at ht
    split at ht
    · cases ht
    · rename_i a he
      cases ht
      exact he

/-- `default_pmm` survives every free for as long as the last page is free. -/
theorem freesBelow_last {s : PmmState} (h : PmmInv base N s) (hl : s.allocated (base + N - 1) = false)
    (ha : s.allowed (.free p n)) : FreesBelow base N s (.free p n) := by
  have hp : s.allocated p = true := ha.2 0 ha.1
  obtain ⟨hlo, hhi⟩ := h.range p hp
  have hne : p ≠ base + N - 1 := by
    rintro rfl
    rw [hl] at hp
    cases hp
  refine .inr ⟨N - 1, by omega, by omega, ?_⟩
  rwa [Nat.add_sub_assoc (by omega)] at hl

theorem running_kmalloc (h : s.Sound base N) : ∃ r rs t, ∃ ht : t.Sound base N,
    (defaultSys base N bootPgdir).kmalloc (.running s h) = (r, .running t ht) ∧
      kmalloc s.heap.heap (s.sizes 0) [(s.allocPages 1).1.map page2kva] none = some (r, t.heap.heap, rs) ∧
      t.pmm = if rs = [] then (s.allocPages 1).2.pmm else s.pmm := by
  obtain ⟨r, rs, u, ha⟩ := h.heapAnswer
  refine ⟨_, rs, _, h.kmalloc.sound, rfl, ?_⟩
  rw [ha.state]
  exact ⟨ha.run, rfl⟩

theorem running_kfree (h : s.Sound base N) (hp : s.live p) : ∃ t, ∃ ht : t.Sound base N,
    (defaultSys base N bootPgdir).kfree (.running s h) p = .running t ht ∧
      (kfree s.heap.heap p).map Prod.fst = some t.heap.heap ∧ t.pmm = s.pmm := by
  obtain ⟨c, hc, rfl⟩ := List.mem_map.1 hp
  obtain ⟨L, recs, hi⟩ := h.heap
  obtain ⟨u, L', hcall, -⟩ := hi.kfree_small hc
  refine ⟨_, (h.kfree c.ptr).1, rfl, ?_, (h.kfree c.ptr).2.1⟩
  unfold Allocators.kfree
  rw [if_pos (List.mem_map_of_mem hc), hcall, Option.getD_some]
  rw [SlobState.call] at hcall
  split at hcall
  · cases hcall
  · rename_i he
    cases hcall
    rw [he]
    rfl

/-- At boot the manager runs. -/
theorem sound_boot (hpool : 0x80200 ≤ base ∧ base + N ≤ npage) (hN : 0 < N) (hp : (pmmMachine base N).init s.pmm)
    (hh : slobMachine.init s.heap) (hu : s.heap.heap.arena + slobUnit < page2kva base)
    (hs : ∀ i, 1 ≤ s.sizes i ∧ s.sizes i < pageSize - 2 * slobUnit) : s.Sound base N where
  pool := hpool
  pmm := by
    refine pmm_init_inv hN ?_ hp
    unfold npage at hpool
    omega
  heap := ⟨_, _, slob_init_inv hh⟩
  bigs := hh.2.2.2.2.2.2
  unit := hu
  pages q hq := by
    rw [hh.2.2.2.2.1] at hq
    cases hq
  sizes := hs

end

end UCore
