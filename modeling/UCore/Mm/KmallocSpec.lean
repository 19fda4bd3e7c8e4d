import Mathlib.Data.List.Pairwise
import UCore.Lib.Cycle
import UCore.Mm.Kmalloc

namespace UCore
set_option autoImplicit true

/-- A run of SLOB units. -/
structure Seg where
  addr : Nat
  units : Nat
  deriving DecidableEq

namespace Seg

def stop (s : Seg) : Nat := s.addr + 16 * s.units

def Disjoint (x y : Seg) : Prop := x.stop ≤ y.addr ∨ y.stop ≤ x.addr

/-- The two runs neither overlap nor touch. -/
def Apart (x y : Seg) : Prop := x.stop < y.addr ∨ y.stop < x.addr

/-- Two neighbouring runs as one. -/
def join (x y : Seg) : Seg := ⟨x.addr, x.units + y.units⟩

theorem Disjoint.symm (h : Disjoint x y) : Disjoint y x := Or.symm h

theorem Apart.symm (h : Apart x y) : Apart y x := Or.symm h

theorem Apart.disjoint (h : Apart x y) : Disjoint x y := h.imp Nat.le_of_lt Nat.le_of_lt

theorem Apart.ne (h : Apart x y) : x ≠ y := by
  rintro rfl
  simp only [Apart, stop] at h
  omega

instance : Std.Symm Disjoint := ⟨fun _ _ h => h.symm⟩
instance : Std.Symm Apart := ⟨fun _ _ h => h.symm⟩

instance : DecidableRel Disjoint := fun _ _ => inferInstanceAs (Decidable (_ ∨ _))
instance : DecidableRel Apart := fun _ _ => inferInstanceAs (Decidable (_ ∨ _))

theorem stop_join (h : x.stop = y.addr) : (join x y).stop = y.stop := by
  simp only [stop, join] at *
  omega

theorem Disjoint.join (hx : Disjoint z x) (hy : Disjoint z y) (h : x.stop = y.addr) (hz : 0 < z.units) :
    Disjoint z (join x y) := by
  simp only [Disjoint, stop, Seg.join] at *
  omega

theorem Apart.join (hx : Apart z x) (hy : Apart z y) (h : x.stop = y.addr) (hz : 0 < z.units) :
    Apart z (join x y) := by
  simp only [Apart, stop, Seg.join] at *
  omega

end Seg

/-- The page at `p` as a run of units. -/
def pageSeg (p : Nat) : Seg := ⟨p, 256⟩

/-- Every byte of `s` lies in one of the pages. -/
def InPages (pages : List Nat) (s : Seg) : Prop :=
  ∀ x, s.addr ≤ x → x < s.stop → ∃ p ∈ pages, p ≤ x ∧ x < p + 4096

theorem InPages.join (hx : InPages pages x) (hy : InPages pages y) (h : x.stop = y.addr) :
    InPages pages (x.join y) := by
  intro a ha hs
  rw [Seg.stop_join h] at hs
  rcases Nat.lt_or_ge a y.addr with hay | hay
  · exact hx a ha (h ▸ hay)
  · exact hy a hay hs

theorem InPages.disjoint (hs : InPages pages s) (hq : ∀ p ∈ pages, Seg.Disjoint q (pageSeg p))
    (hs0 : 0 < s.units) (hq0 : 0 < q.units) : Seg.Disjoint q s := by
  by_contra hn
  simp only [Seg.Disjoint, not_or, Nat.not_le] at hn
  rcases Nat.le_total q.addr s.addr with h | h
  · obtain ⟨p, hp, hx⟩ := hs s.addr le_rfl (by simp only [Seg.stop] at *; omega)
    have := hq p hp
    simp only [Seg.Disjoint, Seg.stop, pageSeg] at *
    omega
  · obtain ⟨p, hp, hx⟩ := hs q.addr h hn.2
    have := hq p hp
    simp only [Seg.Disjoint, Seg.stop, pageSeg] at *
    omega

def totalUnits (X : List Seg) : Nat := (X.map Seg.units).sum

@[simp] theorem totalUnits_cons : totalUnits (x :: X) = x.units + totalUnits X := by
  simp [totalUnits]

@[simp] theorem totalUnits_append : totalUnits (X ++ Y) = totalUnits X + totalUnits Y := by
  simp [totalUnits]

theorem length_le_totalUnits (h : ∀ s ∈ X, 0 < s.units) : X.length ≤ totalUnits X := by
  induction X with
  | nil => simp
  | cons x X ih =>
    have hx := h x (by simp)
    have := ih fun s hs => h s (List.mem_cons_of_mem _ hs)
    simp only [List.length_cons, totalUnits_cons]
    omega

/-- The runs `X` divide up the static arena unit and the pages of the arena. -/
structure Tiling (arena : Seg) (pages : List Nat) (X : List Seg) : Prop where
  pos : ∀ s ∈ X, 0 < s.units
  disjoint : X.Pairwise Seg.Disjoint
  covered : ∀ s ∈ X, s ≠ arena → InPages pages s
  total : totalUnits X = 1 + 256 * pages.length

namespace Tiling

theorem perm (h : Tiling A ps X) (hp : X.Perm Y) : Tiling A ps Y where
  pos := fun s hs => h.pos s (hp.mem_iff.2 hs)
  disjoint := (hp.pairwise_iff fun h => h.symm).1 h.disjoint
  covered := fun s hs => h.covered s (hp.mem_iff.2 hs)
  total := by rw [← h.total, totalUnits, totalUnits, (hp.map _).sum_nat]

theorem join (h : Tiling A ps (x :: y :: X)) (hxy : x.stop = y.addr) (hx : x ≠ A) (hy : y ≠ A) :
    Tiling A ps (x.join y :: X) := by
  have hd := List.pairwise_cons.1 h.disjoint
  have hd' := List.pairwise_cons.1 hd.2
  refine ⟨?_, List.pairwise_cons.2 ⟨?_, hd'.2⟩, ?_, ?_⟩
  · intro s hs
    rcases List.mem_cons.1 hs with rfl | hs
    · exact Nat.add_pos_left (h.pos x (by simp)) _
    · exact h.pos s (by simp [hs])
  · intro s hs
    exact (Seg.Disjoint.join (hd.1 s (by simp [hs])).symm (hd'.1 s hs).symm hxy
      (h.pos s (by simp [hs]))).symm
  · intro s hs hsA
    rcases List.mem_cons.1 hs with rfl | hs
    · exact (h.covered x (by simp) hx).join (h.covered y (by simp) hy) hxy
    · exact h.covered s (by simp [hs]) hsA
  · have := h.total
    simp only [totalUnits_cons, Seg.join] at this ⊢
    omega

/-- Cut a run in two. -/
theorem split (h : Tiling A ps (⟨a, u⟩ :: X)) (hA : ⟨a, u⟩ ≠ A) (hn : 0 < n) (hu : n < u) :
    Tiling A ps (⟨a, n⟩ :: ⟨a + 16 * n, u - n⟩ :: X) := by
  have hd := List.pairwise_cons.1 h.disjoint
  have hc := h.covered _ (by simp) hA
  simp only [InPages, Seg.stop] at hc
  refine ⟨?_, List.pairwise_cons.2 ⟨?_, List.pairwise_cons.2 ⟨?_, hd.2⟩⟩, ?_, ?_⟩
  · intro s hs
    simp only [List.mem_cons] at hs
    rcases hs with rfl | rfl | hs
    · exact hn
    · exact Nat.sub_pos_of_lt hu
    · exact h.pos s (by simp [hs])
  · intro s hs
    rcases List.mem_cons.1 hs with rfl | hs
    · exact .inl le_rfl
    · have := hd.1 s hs
      simp only [Seg.Disjoint, Seg.stop] at *
      omega
  · intro s hs
    have := hd.1 s hs
    simp only [Seg.Disjoint, Seg.stop] at *
    omega
  · intro s hs hsA
    simp only [List.mem_cons] at hs
    rcases hs with rfl | rfl | hs
    · exact fun x hx hs => hc x hx (by simp only [Seg.stop] at *; omega)
    · exact fun x hx hs => hc x (by simp only at *; omega) (by simp only [Seg.stop] at *; omega)
    · exact h.covered s (by simp [hs]) hsA
  · have := h.total
    simp only [totalUnits_cons] at this ⊢
    omega

/-- A new page for the arena. -/
theorem page (h : Tiling A ps X) (hpA : Seg.Disjoint (pageSeg p) A)
    (hp : ∀ q ∈ ps, Seg.Disjoint (pageSeg p) (pageSeg q)) : Tiling A (p :: ps) (pageSeg p :: X) := by
  refine ⟨?_, List.pairwise_cons.2 ⟨?_, h.disjoint⟩, ?_, ?_⟩
  · intro s hs
    rcases List.mem_cons.1 hs with rfl | hs
    · exact Nat.succ_pos _
    · exact h.pos s hs
  · intro s hs
    by_cases hsA : s = A
    · exact hsA ▸ hpA
    · exact (h.covered s hs hsA).disjoint hp (h.pos s hs) (Nat.succ_pos _)
  · intro s hs hsA x hx hxs
    rcases List.mem_cons.1 hs with rfl | hs
    · refine ⟨p, by simp, hx, ?_⟩
      simpa [Seg.stop, pageSeg] using hxs
    · obtain ⟨q, hq, hxq⟩ := h.covered s hs hsA x hx hxs
      exact ⟨q, by simp [hq], hxq⟩
  · have := h.total
    simp only [totalUnits_cons, List.length_cons, pageSeg] at this ⊢
    omega

end Tiling

section Memory
variable {h : SlobHeap}

@[simp] theorem mem_store : (h.store a v).mem = Function.update h.mem a v := rfl
@[simp] theorem arena_store : (h.store a v).arena = h.arena := rfl
@[simp] theorem slobfree_store : (h.store a v).slobfree = h.slobfree := rfl
@[simp] theorem bigblocks_store : (h.store a v).bigblocks = h.bigblocks := rfl
@[simp] theorem pages_store : (h.store a v).pages = h.pages := rfl

/-- The two heaps agree on the words of `s`. -/
def SameOn (s : Seg) (h h' : SlobHeap) : Prop :=
  ∀ w, s.addr ≤ w → w < s.stop → h'.mem w = h.mem w

theorem SameOn.trans (h₁ : SameOn s h h') (h₂ : SameOn s h' h'') : SameOn s h h'' :=
  fun w hw hs => (h₂ w hw hs).trans (h₁ w hw hs)

theorem sameOn_store (ha : a < s.addr ∨ s.stop ≤ a) : SameOn s h (h.store a v) := by
  intro w hw hs
  exact Function.update_of_ne (by omega) ..

theorem next_setNext : (h.setNext b c).next = Function.update h.next b c := by
  funext x
  simp [SlobHeap.next, SlobHeap.setNext, Function.update_apply]

theorem next_setUnits (hx : x + 8 ≠ b) : (h.setUnits b n).next x = h.next x :=
  Function.update_of_ne hx ..

theorem units_setUnits : (h.setUnits b n).units = Function.update h.units b n := rfl

theorem units_setNext (hx : x ≠ b + 8) : (h.setNext b c).units x = h.units x :=
  Function.update_of_ne hx ..

end Memory

/-- The runs `L` are the nodes of a circular list of blocks, one wrap short of address order, and
their headers hold their sizes. -/
structure SlobRing (h : SlobHeap) (L : List Seg) : Prop where
  cycle : Cycle h.next (L.map Seg.addr)
  wrap : OneWrap (L.map Seg.addr)
  header : ∀ s ∈ L, h.units s.addr = s.units
  pos : ∀ s ∈ L, 0 < s.units
  disjoint : L.Pairwise Seg.Disjoint

namespace SlobRing

theorem isRotated (h : SlobRing H L) (hr : L ~r S) : SlobRing H S where
  cycle := h.cycle.isRotated (hr.map _)
  wrap := h.wrap.isRotated (hr.map _)
  header := fun s hs => h.header s (hr.mem_iff.2 hs)
  pos := fun s hs => h.pos s (hr.mem_iff.2 hs)
  disjoint := (hr.perm.pairwise_iff fun h => h.symm).1 h.disjoint

theorem nodup (h : SlobRing H L) : (L.map Seg.addr).Nodup := by
  refine List.pairwise_map.2 (h.disjoint.imp_of_mem fun hx hy hd => ?_)
  have hx := h.pos _ hx
  have hy := h.pos _ hy
  simp only [Seg.Disjoint, Seg.stop] at hd
  omega

/-- Any block can be made the last of the turn. -/
theorem rotate_last (h : SlobRing H L) (hx : x ∈ L) :
    ∃ c M, L ~r c :: M ∧ M.getLastD c = x ∧ SlobRing H (c :: M) := by
  obtain ⟨l, r, rfl⟩ := List.append_of_mem hx
  have hr : l ++ x :: r ~r r ++ l ++ [x] := by
    have := rotated_append (l ++ [x]) r
    simpa using this
  cases hrl : r ++ l with
  | nil => exact ⟨x, [], by simpa [hrl] using hr, rfl, h.isRotated (by simpa [hrl] using hr)⟩
  | cons c M => exact ⟨c, M ++ [x], by simpa [hrl] using hr, by simp,
      h.isRotated (by simpa [hrl] using hr)⟩

end SlobRing

/-- The heap `h` has the free blocks `L`; the runs `used` are taken from it. -/
structure SlobRep (h : SlobHeap) (L used : List Seg) : Prop extends SlobRing h L where
  apart : L.Pairwise Seg.Apart
  start : h.slobfree ∈ L.map Seg.addr
  arena : ⟨h.arena, 1⟩ ∈ L
  tiling : Tiling ⟨h.arena, 1⟩ h.pages (L ++ used)
  pages : ∀ p ∈ h.pages, 0 < p ∧ Seg.Apart ⟨h.arena, 1⟩ (pageSeg p)

end UCore
