import UCore.Mm.Serves
import UCore.Process.LoadExact

namespace UCore
set_option autoImplicit true
open Function (update)

section
variable {σ : Type} {E : SegEnv σ}

end

section
variable {A : PhysSys} {m m₁ m₂ s s₀ t : Mem A} {role role' : Nat → Role} {P : Nat → Option (BitVec 32)}
  {B : Nat → Option (BitVec 8)}
variable (hp : s₀.Plain) (hd : role d = .node d []) (hb : PermBits perm) (hs : stop ≤ userTop)
  (hn : ∀ v, va / pgSize ≤ v → v * pgSize < stop → P v = none)
include hp hd hb hs hn

end

/-- The number of pages of a segment. -/
def ProgHdr.pages (ph : ProgHdr) : Nat :=
  (pageEnd ph.pVa.toNat ph.pMemsz.toNat - roundDown ph.pVa.toNat pgSize) / pgSize

section
variable {A : PhysSys} {m s₀ : Mem A} {role role' : Nat → Role} {P : Nat → Option (BitVec 32)}
  {B : Nat → Option (BitVec 8)} {ph : ProgHdr}

end

namespace ProgHdr

/-- The file part is in the segment, which is not empty and lies, with its pages, below the area of the stack. -/
structure Loadable (ph : ProgHdr) : Prop where
  file : ph.pFilesz.toNat ≤ ph.pMemsz.toNat
  pos : 0 < ph.pMemsz.toNat
  base : userBase ≤ roundDown ph.pVa.toNat pgSize
  top : pageEnd ph.pVa.toNat ph.pMemsz.toNat ≤ ustackTop - ustackSize

/-- The segments have no page in common. -/
def Apart (x y : ProgHdr) : Prop :=
  pageEnd x.pVa.toNat x.pMemsz.toNat ≤ roundDown y.pVa.toNat pgSize ∨
    pageEnd y.pVa.toNat y.pMemsz.toNat ≤ roundDown x.pVa.toNat pgSize

theorem Loadable.access (h : Loadable ph) :
    UserAccess (roundDown ph.pVa.toNat pgSize) (pageEnd ph.pVa.toNat ph.pMemsz.toNat) := by
  obtain ⟨-, hpos, hbase, htop⟩ := h
  refine ⟨hbase, ?_, ?_⟩
  · unfold pageEnd roundDown pgSize
    omega
  · refine Nat.le_trans htop ?_
    decide

end ProgHdr

section
variable {A : PhysSys} {m s t : Mem A} {role : Nat → Role} {ph : ProgHdr} {done rest : List ProgHdr}

end

end UCore
