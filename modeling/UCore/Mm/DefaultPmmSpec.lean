import UCore.Mm.DefaultPmm
import Mathlib.Data.List.Pairwise
import Mathlib.Algebra.BigOperators.Group.List.Basic

namespace UCore
set_option autoImplicit true

/-- A free block: `size` pages from the page `head` on. -/
structure Block where
  head : Nat
  size : Nat
  deriving DecidableEq, Repr

namespace Block

def stop (b : Block) : Nat := b.head + b.size

def Has (b : Block) (p : Nat) : Prop := b.head ≤ p ∧ p < b.stop

def entry (b : Block) : PageEntry := .pageLink b.head

end Block

/-- The page `p` belongs to one of the blocks. -/
def Covers (bs : List Block) (p : Nat) : Prop := ∃ b ∈ bs, b.Has p

instance (bs : List Block) : DecidablePred (Covers bs) := fun p =>
  inferInstanceAs (Decidable (∃ b ∈ bs, b.head ≤ p ∧ p < b.stop))

@[simp] theorem covers_nil : ¬ Covers [] p := by simp [Covers]

@[simp] theorem covers_cons : Covers (b :: bs) p ↔ b.Has p ∨ Covers bs p := by simp [Covers]

@[simp] theorem covers_append : Covers (bs ++ cs) p ↔ Covers bs p ∨ Covers cs p := by
  simp [Covers, or_and_right, exists_or]

/-- Ascending by address, and no block overlaps or touches the next. -/
def Separated (bs : List Block) : Prop := bs.Pairwise (fun b c => b.stop < c.head)

def sizes (bs : List Block) : Nat := (bs.map Block.size).sum

@[simp] theorem sizes_nil : sizes [] = 0 := rfl

@[simp] theorem sizes_cons (b : Block) (bs : List Block) : sizes (b :: bs) = b.size + sizes bs := by
  simp [sizes]

@[simp] theorem sizes_append (bs cs : List Block) : sizes (bs ++ cs) = sizes bs + sizes cs := by
  simp [sizes]

theorem size_le_sizes {bs : List Block} (hb : b ∈ bs) : b.size ≤ sizes bs := by
  induction bs with
  | nil => simp at hb
  | cons c bs ih =>
    rw [sizes_cons]
    rcases List.mem_cons.1 hb with rfl | hb
    · exact Nat.le_add_right _ _
    · exact Nat.le_add_left_of_le (ih hb)

/-- The free list of `a` represents the blocks `bs`, all of them among the pages from `lo` to `hi`. -/
structure FreeRep (a : FreeArea) (lo hi : Nat) (bs : List Block) : Prop where
  ring : a.link.Ring .freeList (bs.map Block.entry)
  inside : ∀ b ∈ bs, 0 < b.size ∧ lo ≤ b.head ∧ b.stop ≤ hi
  property : ∀ b ∈ bs, a.property b.head = b.size
  unreserved : ∀ p, lo ≤ p → p < hi → a.pageReserved p = false
  flag : ∀ p, lo ≤ p → p < hi → (a.pageProperty p = true ↔ ∃ b ∈ bs, b.head = p)
  nrFree : a.nrFree = sizes bs
  bound : hi ≤ a.npage
  small : hi - lo < 2 ^ 32

/-- A well formed free list is moreover ascending and fully coalesced. -/
structure FreeWf (a : FreeArea) (lo hi : Nat) (bs : List Block) : Prop extends
    FreeRep a lo hi bs where
  separated : Separated bs

section Fields
variable (a : FreeArea) (p q n : Nat)

@[simp] theorem setProperty_property :
    (a.setProperty p n).property q = if q = p then uint n else a.property q := by
  by_cases h : q = p <;> simp [FreeArea.setProperty, FreeArea.setPage, FreeArea.property, h]

@[simp] theorem setProperty_pageProperty :
    (a.setProperty p n).pageProperty q = a.pageProperty q := by
  by_cases h : q = p <;> simp [FreeArea.setProperty, FreeArea.setPage, FreeArea.pageProperty, h]

@[simp] theorem setProperty_pageReserved :
    (a.setProperty p n).pageReserved q = a.pageReserved q := by
  by_cases h : q = p <;> simp [FreeArea.setProperty, FreeArea.setPage, FreeArea.pageReserved, h]

@[simp] theorem setPageProperty_property : (a.setPageProperty p).property q = a.property q := by
  by_cases h : q = p <;> simp [FreeArea.setPageProperty, FreeArea.setPage, FreeArea.property, h]

@[simp] theorem setPageProperty_pageProperty :
    (a.setPageProperty p).pageProperty q = if q = p then true else a.pageProperty q := by
  by_cases h : q = p <;> simp [FreeArea.setPageProperty, FreeArea.setPage, FreeArea.pageProperty, h]

@[simp] theorem setPageProperty_pageReserved :
    (a.setPageProperty p).pageReserved q = a.pageReserved q := by
  by_cases h : q = p <;> simp [FreeArea.setPageProperty, FreeArea.setPage, FreeArea.pageReserved, h]

@[simp] theorem clearPageProperty_property : (a.clearPageProperty p).property q = a.property q := by
  by_cases h : q = p <;> simp [FreeArea.clearPageProperty, FreeArea.setPage, FreeArea.property, h]

@[simp] theorem clearPageProperty_pageProperty :
    (a.clearPageProperty p).pageProperty q = if q = p then false else a.pageProperty q := by
  by_cases h : q = p <;>
    simp [FreeArea.clearPageProperty, FreeArea.setPage, FreeArea.pageProperty, h]

@[simp] theorem clearPageProperty_pageReserved :
    (a.clearPageProperty p).pageReserved q = a.pageReserved q := by
  by_cases h : q = p <;>
    simp [FreeArea.clearPageProperty, FreeArea.setPage, FreeArea.pageReserved, h]

@[simp] theorem setProperty_link : (a.setProperty p n).link = a.link := rfl
@[simp] theorem setPageProperty_link : (a.setPageProperty p).link = a.link := rfl
@[simp] theorem clearPageProperty_link : (a.clearPageProperty p).link = a.link := rfl
@[simp] theorem setProperty_nrFree : (a.setProperty p n).nrFree = a.nrFree := rfl
@[simp] theorem setPageProperty_nrFree : (a.setPageProperty p).nrFree = a.nrFree := rfl
@[simp] theorem clearPageProperty_nrFree : (a.clearPageProperty p).nrFree = a.nrFree := rfl
@[simp] theorem setProperty_npage : (a.setProperty p n).npage = a.npage := rfl
@[simp] theorem setPageProperty_npage : (a.setPageProperty p).npage = a.npage := rfl
@[simp] theorem clearPageProperty_npage : (a.clearPageProperty p).npage = a.npage := rfl

variable (l : Links PageEntry)

@[simp] theorem setLink_property : (a.setLink l).property q = a.property q := rfl
@[simp] theorem setLink_pageProperty : (a.setLink l).pageProperty q = a.pageProperty q := rfl
@[simp] theorem setLink_pageReserved : (a.setLink l).pageReserved q = a.pageReserved q := rfl
@[simp] theorem setLink_link : (a.setLink l).link = l := rfl
@[simp] theorem setLink_nrFree : (a.setLink l).nrFree = a.nrFree := rfl
@[simp] theorem setLink_npage : (a.setLink l).npage = a.npage := rfl
@[simp] theorem setNrFree_property : (a.setNrFree n).property q = a.property q := rfl
@[simp] theorem setNrFree_pageProperty : (a.setNrFree n).pageProperty q = a.pageProperty q := rfl
@[simp] theorem setNrFree_pageReserved : (a.setNrFree n).pageReserved q = a.pageReserved q := rfl
@[simp] theorem setNrFree_link : (a.setNrFree n).link = a.link := rfl
@[simp] theorem setNrFree_nrFree : (a.setNrFree n).nrFree = uint n := rfl
@[simp] theorem setNrFree_npage : (a.setNrFree n).npage = a.npage := rfl

end Fields

theorem fresh_entry {bs : List Block} (hp : ∀ b ∈ bs, b.head ≠ p) :
    PageEntry.pageLink p ∉ PageEntry.freeList :: bs.map Block.entry := by
  simp only [List.mem_cons, reduceCtorEq, List.mem_map, false_or, not_exists, not_and]
  intro b hb he
  exact hp b hb (by simpa [Block.entry] using he)

theorem FreeRep.heads_nodup (h : FreeRep a lo hi bs) : (bs.map Block.head).Nodup := by
  have hn := h.ring.nodup_tail
  have he : bs.map Block.entry = (bs.map Block.head).map PageEntry.pageLink := by
    rw [List.map_map]
    rfl
  rw [he] at hn
  exact hn.of_map _

/-- Separated blocks inside a range hold no more pages than the range. -/
theorem sizes_le {bs : List Block} (hs : Separated bs)
    (hin : ∀ b ∈ bs, lo ≤ b.head ∧ b.stop ≤ hi) :
    sizes bs ≤ hi - lo := by
  induction bs generalizing lo with
  | nil => simp
  | cons b bs ih =>
    obtain ⟨hb, hs'⟩ := List.pairwise_cons.1 hs
    have hlo := hin b List.mem_cons_self
    have hrest : sizes bs ≤ hi - b.stop := by
      apply ih hs'
      intro c hc
      exact ⟨Nat.le_of_lt (hb c hc), (hin c (List.mem_cons_of_mem _ hc)).2⟩
    simp only [sizes_cons, Block.stop] at *
    omega

/-- The blocks on the list fit into the page array, so the walks have enough fuel. -/
theorem FreeWf.length_le (h : FreeWf a lo hi bs) : bs.length ≤ a.npage := by
  have hs := sizes_le h.separated (fun b hb => (h.inside b hb).2)
  have hl : bs.length ≤ sizes bs := by
    have := List.length_le_sum_of_one_le (bs.map Block.size) (by
      intro k hk
      obtain ⟨b, hb, rfl⟩ := List.mem_map.1 hk
      exact (h.inside b hb).1)
    simpa [sizes] using this
  have := h.bound
  omega

end UCore
