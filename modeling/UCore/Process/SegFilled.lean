import UCore.Mm.Filled
import UCore.Process.SegLoops

namespace UCore
set_option autoImplicit true
open Function (update)

/-- A segment from `va` on has been filled up to `start` with the bytes `g`, in addition to the pages `P` and
the bytes `B`; `s₀` is the memory before it. -/
structure SegFilled {A : PhysSys} (d : Nat) (perm : BitVec 32) (va : Nat) (g : Nat → BitVec 8)
    (P : Nat → Option (BitVec 32)) (B : Nat → Option (BitVec 8)) (m : Mem A) (role : Nat → Role) (s₀ : Mem A)
    (start : Nat) (s : Mem A) : Prop where
  filled : ∃ role', Filled d (mapPages P perm va start) (knowBytes B g va start) m s role role'
  vars : SameVars s₀ s
  oom : s₀.oom ≤ s.oom
  le : va ≤ start

section
variable {A : PhysSys} {m m₁ m₂ s s₀ t : Mem A} {role role' : Nat → Role} {P : Nat → Option (BitVec 32)}
  {B : Nat → Option (BitVec 8)}

theorem writePage_eq (h : s.writePage p off size src = some t) :
    off + size ≤ pgSize ∧ t = s.setFrame p ((s.frame p).fill off size src) := by
  unfold Mem.writePage at h
  split at h
  · rename_i hs
    cases h
    exact ⟨hs, rfl⟩
  · cases h

theorem vpn_page (h : la < userTop) : vpn la = la / pgSize ∧ la / pgSize < userVpn := by
  unfold userTop at h
  unfold vpn pgSize userVpn
  omega

/-- Writing a page of the directory leaves the directory alone. -/
theorem Filled.pteAt_fill (h : Filled d P B m s role role') (hd : role d = .node d []) (hv : v < userVpn)
    (hp : P v = some perm) (ht : ptePpn (s.pteAt d v) = f) (hs : off + size ≤ pgSize) (src : Nat → BitVec 8)
    (hw : w < userVpn) : (s.setFrame f ((s.frame f).fill off size src)).pteAt d w = s.pteAt d w := by
  have hval : pteValid (s.pteAt d v) := by
    rw [h.valid hv, hp]
    rfl
  have hleaf := h.leaf hd hv hval
  rw [ht] at hleaf
  refine h.paged.pteAt_congr (h.fill hd hv hp ht hs src).paged (fun _ _ => Iff.rfl) (fun g p hg => ?_)
    (h.root hd) hw
  apply Function.update_of_ne
  rintro rfl
  rw [hleaf] at hg
  cases hg

/-- `pgdir_alloc_page` at an address that is not mapped, when it succeeds. -/
theorem Filled.alloc (h : Filled d P B m s role role') (hp : s.Plain) (hd : role d = .node d [])
    (hb : PermBits perm) (hu : la < userTop) (hn : P (la / pgSize) = none)
    (ha : s.pgdirAllocPage d la perm = some (some p, t)) :
    ∃ role₂, Filled d (update P (la / pgSize) (some perm)) B m t role role₂ ∧ SameVars s t ∧ s.oom ≤ t.oom ∧
      ptePpn (t.pteAt d (la / pgSize)) = p := by
  obtain ⟨hvpn, hv⟩ := vpn_page hu
  have hinv : pteValid (s.pteAt d (vpn la)) = false := by
    rw [hvpn, h.valid hv, hn]
    rfl
  cases pgdirAllocPage_spec h.paged hp (h.root hd) (hvpn ▸ hv) hinv hb ha with
  | inl hno => cases hno.1
  | inr hok =>
    obtain ⟨x, role₂, ht, hgain, -⟩ := hok
    cases ht
    rw [hvpn] at hgain
    refine ⟨role₂, h.gains hgain hd hv hb hn, hgain.vars, hgain.oom, ?_⟩
    have hbits : PermBits (pteV ||| perm) := hb.valid
    rw [hgain.new]
    exact hgain.paged.ppn_create (by rw [(hgain.leaf p).2 (.inr rfl)]; simp) hbits

/-- One round of the loops: a new page at `la`, and the piece of the segment in it. -/
theorem SegFilled.chunk (h : SegFilled d perm va g P B m role s₀ start s) (hp : s₀.Plain)
    (hd : role d = .node d []) (hb : PermBits perm) (hla : la % pgSize = 0) (hle : la ≤ start)
    (hu : start < userTop) (hat : start = va ∨ start = la) (hpos : 0 < size) (hn : P (la / pgSize) = none)
    (ha : s.pgdirAllocPage d la perm = some (some p, m₁))
    (hw : m₁.writePage p (start - la) size src = some m₂)
    (hsrc : ∀ role₁, Adds d m m₁ role role₁ → ∀ i < size, src i = g (start - va + i)) :
    SegFilled d perm va g P B m role s₀ (start + size) m₂ ∧ ptePpn (m₂.pteAt d (la / pgSize)) = p := by
  obtain ⟨role₁, hf⟩ := h.filled
  obtain ⟨hs, rfl⟩ := writePage_eq hw
  have hlu := Nat.lt_of_le_of_lt hle hu
  obtain ⟨-, hv⟩ := vpn_page hlu
  have hva := h.le
  have hnone : mapPages P perm va start (la / pgSize) = none := (mapPages_next hla hat).trans hn
  obtain ⟨role₂, hnew, hvars, hoom, hppn⟩ := hf.alloc (h.vars.plain hp) hd hb hlu hnone ha
  have hpage : update (mapPages P perm va start) (la / pgSize) (some perm) (la / pgSize) = some perm :=
    Function.update_self ..
  have hend : start + size ≤ la + pgSize := by omega
  have hfill := hnew.fill hd hv hpage hppn hs src
  rw [mapPages_step hla hle hva (Nat.lt_add_of_pos_right hpos) hend] at hfill
  have hoff : la / pgSize * pgSize + (start - la) = start := by
    unfold pgSize at *
    omega
  rw [hoff, knowBytes_step hva (Nat.le_add_right ..) fun i hi => hsrc _ hnew.toAdds i (by omega)] at hfill
  refine ⟨⟨⟨role₂, hfill⟩, ?_, Nat.le_trans h.oom hoom, Nat.le_trans hva (Nat.le_add_right ..)⟩, ?_⟩
  · exact (h.vars.trans hvars).trans (.setFrame ..)
  · rw [hnew.pteAt_fill hd hv hpage hppn hs src hv]
    exact hppn

/-- The rest of a page that has been mapped before. -/
theorem SegFilled.rest (h : SegFilled d perm va g P B m role s₀ start s) (hd : role d = .node d [])
    (hla : la % pgSize = 0) (hlt : la < start) (hva : va < start) (hu : start < userTop)
    (hpage : ptePpn (s.pteAt d (la / pgSize)) = p) (hw : s.writePage p (start - la) size src = some m₂)
    (hsrc : ∀ i < size, src i = g (start - va + i)) : SegFilled d perm va g P B m role s₀ (start + size) m₂ := by
  obtain ⟨role₁, hf⟩ := h.filled
  obtain ⟨hs, rfl⟩ := writePage_eq hw
  obtain ⟨-, hv⟩ := vpn_page (Nat.lt_trans hlt hu)
  have hmapped : mapPages P perm va start (la / pgSize) = some perm := by
    apply if_pos
    unfold pgSize at *
    omega
  have hfill := hf.fill hd hv hmapped hpage hs src
  have hend : start + size ≤ la + pgSize := by omega
  rw [← mapPages_same hla hlt hva (Nat.le_add_right ..) hend] at hfill
  have hoff : la / pgSize * pgSize + (start - la) = start := by
    unfold pgSize at *
    omega
  rw [hoff, knowBytes_step h.le (Nat.le_add_right ..) fun i hi => hsrc i (by omega)] at hfill
  exact ⟨⟨role₁, hfill⟩, h.vars.trans (.setFrame ..), h.oom, Nat.le_trans h.le (Nat.le_add_right ..)⟩

/-- The kernel address is one in a frame that is used for something else than the tree of `d`. -/
def KernUsed (role : Nat → Role) (d a : Nat) : Prop :=
  ∀ f, kva ((a - vaPaOffset) / pgSize) = some f → role f ≠ .free ∧ ∀ p, role f ≠ .node d p

theorem Adds.kbyte (h : Adds d m s role role') (hu : KernUsed role d a) : s.kbyte a = m.kbyte a := by
  unfold KernUsed at hu
  unfold Mem.kbyte
  generalize (a - vaPaOffset) / pgSize = k at hu ⊢
  split
  · cases hk : kva k with
    | none => rw [Option.map_none, Option.map_none]
    | some f =>
      obtain ⟨hf, hn⟩ := hu f hk
      rw [Option.map_some, Option.map_some, h.frame f hf hn]
  · rfl

theorem addW_assoc (a b c : Nat) : addW (addW a b) c = addW a (b + c) := by
  unfold addW
  rw [Nat.mod_add_mod, Nat.add_assoc]

/-- The bytes from an address of the kernel on. -/
def Mem.kbytes (m : Mem A) (src : Nat) : Nat → BitVec 8 := fun i => (m.kbyte (addW src i)).getD 0

theorem memcpyPage_eq (h : s.memcpyPage p off src size = some t) :
    s.writePage p off size (s.kbytes src) = some t := by
  unfold Mem.memcpyPage at h
  split at h
  · exact h
  · cases h

theorem segEnv_memcpy (m : Mem A) (p off src size : Nat) :
    (Mem.segEnv d perm).memcpy m p off src size = m.memcpyPage p off src size := rfl

theorem segEnv_memset (m : Mem A) (p off size : Nat) :
    (Mem.segEnv d perm).memset m p off size = m.writePage p off size fun _ => 0 := rfl

/-- The piece of a segment in the page at `la` is not empty, and ends in that page. -/
theorem segChunk_pos (hin : InPage start la) (hlt : start < stop) (hs : stop ≤ userTop) :
    (segChunk start la stop).1 = start - la ∧ 0 < (segChunk start la stop).2 ∧
      start + (segChunk start la stop).2 ≤ la + pgSize ∧
      addW start (segChunk start la stop).2 = start + (segChunk start la stop).2 := by
  unfold userTop at hs
  obtain ⟨h₁, h₂, h₃⟩ := segChunk_spec hin hlt (by omega)
  obtain ⟨hmod, hle, hend⟩ := hin
  refine ⟨h₁, by omega, by omega, ?_⟩
  unfold addW
  unfold pgSize at *
  omega

theorem segChunk_le (hin : InPage start la) (hlt : start < stop) (hs : stop ≤ userTop) :
    start + (segChunk start la stop).2 ≤ stop := by
  unfold userTop at hs
  obtain ⟨h₁, h₂, h₃⟩ := segChunk_spec hin hlt (by omega)
  obtain ⟨hmod, hle, hend⟩ := hin
  unfold pgSize at *
  omega

section
variable (hp : s₀.Plain) (hd : role d = .node d []) (hb : PermBits perm) (hs : stop ≤ userTop)
  (hn : ∀ v, va / pgSize ≤ v → v * pgSize < stop → P v = none)
include hp hd hb hs hn

omit hp hd hb hs in
theorem segPage_none (hin : InPage start la) (hlt : start < stop) (hva : va ≤ start) : P (la / pgSize) = none := by
  have h₁ := hin.le
  have h₂ := hin.lt
  have h₃ := hin.aligned
  apply hn <;> unfold pgSize at * <;> omega

/-- An allocation in the loops has failed. -/
theorem SegFilled.failed (hf : SegFilled d perm va g P B m role s₀ start s) (hin : InPage start la)
    (hlt : start < stop) (hat : start = va ∨ start = la) (ha : s.pgdirAllocPage d la perm = some (none, t)) :
    s₀.oom < t.oom := by
  obtain ⟨role₁, hfill⟩ := hf.filled
  obtain ⟨hvpn, hv⟩ := vpn_page (Nat.lt_of_lt_of_le (Nat.lt_of_le_of_lt hin.le hlt) hs)
  have hnone := segPage_none hn hin hlt hf.le
  have hinv : pteValid (s.pteAt d (vpn la)) = false := by
    rw [hvpn, hfill.valid hv, (mapPages_next hin.aligned hat).trans hnone]
    rfl
  have hspec := pgdirAllocPage_spec hfill.paged (hf.vars.plain hp) (hfill.root hd) (hvpn ▸ hv) hinv hb ha
  rcases hspec with ⟨-, hoom, -⟩ | ⟨x, -, hx, -⟩
  · exact Nat.lt_of_le_of_lt hf.oom hoom
  · cases hx

/-- The loop over the file part, when it is not empty. -/
theorem copyLoop_filled (h : SegFilled d perm va g P B m role s₀ va s₀) (hlt : va < stop)
    (himg : ∀ j < stop - va, KernUsed role d (addW src j)) (hg : ∀ j < stop - va, g j = m.kbytes src j)
    (hc : (Mem.segEnv d perm).copyLoop stop s₀ none va (roundDown va pgSize) src fuel = some (r, t)) :
    (r = none → s₀.oom < t.oom) ∧ ∀ page start la, r = some (page, start, la) →
      start = stop ∧ stop ≤ la ∧ la < stop + pgSize ∧ la % pgSize = 0 ∧
        SegFilled d perm va g P B m role s₀ stop t ∧
        page = some (ptePpn (t.pteAt d ((stop - 1) / pgSize))) := by
  have hs' : stop < 2 ^ 64 := by
    unfold userTop at hs
    omega
  have hinit : roundDown va pgSize % pgSize = 0 ∧ roundDown va pgSize ≤ va ∧ va < roundDown va pgSize + pgSize := by
    unfold roundDown pgSize
    omega
  obtain ⟨hmod, hle, hin⟩ := hinit
  have hloop := copyLoop_pages (fun start la src' page s =>
      SegFilled d perm va g P B m role s₀ start s ∧ (start < stop → start = va ∨ start = la) ∧
        (∀ i, addW src' i = addW src (start - va + i)) ∧
        (va < start → page = some (ptePpn (s.pteAt d ((start - 1) / pgSize)))))
    (fun t => s₀.oom < t.oom) ?_ ?_ hs' ⟨hmod, hle, hin⟩ hlt
    ⟨h, fun _ => .inl rfl, fun i => by rw [Nat.sub_self, Nat.zero_add],
      fun hc => absurd hc (Nat.lt_irrefl _)⟩ hc
  · obtain ⟨hnone, hsome⟩ := hloop
    refine ⟨hnone, fun page start la hr => ?_⟩
    obtain ⟨rfl, h₁, h₂, h₃, -, -, src', hf, -, -, hpage⟩ := hsome page start la hr
    exact ⟨rfl, h₁, h₂, h₃, hf, hpage hlt⟩
  · rintro s page start la src' t ⟨hf, hat, -, -⟩ hin hlt ha
    exact hf.failed hp hd hb hs hn hin hlt (hat hlt) ha
  · rintro s page start la src' p t u ⟨hf, hat, hsrc, -⟩ hin hlt ha hc
    have hva := hf.le
    have h₁ := hin.le
    have h₃ := hin.aligned
    obtain ⟨hoff, hpos, hend, haddr⟩ := segChunk_pos hin hlt hs
    have hlast := segChunk_le hin hlt hs
    have hnone := segPage_none hn hin hlt hva
    have hnext := segChunk_next hin hlt hs'
    rw [haddr] at hnext ⊢
    rw [segEnv_memcpy, hoff] at hc
    have hw := memcpyPage_eq hc
    generalize (segChunk start la stop).2 = size at *
    have hread (role₁ : Nat → Role) (hadds : Adds d m t role role₁) (i : Nat) (hi : i < size) :
        t.kbytes src' i = g (start - va + i) := by
      rw [hg _ (by omega)]
      unfold Mem.kbytes
      rw [hsrc i, hadds.kbyte (himg _ (by omega))]
    obtain ⟨hf', hpage⟩ := hf.chunk hp hd hb h₃ h₁ (Nat.lt_of_lt_of_le hlt hs) (hat hlt) hpos hnone ha hw hread
    refine ⟨hf', fun hlt' => ?_, fun i => ?_, fun _ => ?_⟩
    · rcases hnext with ⟨-, heq, -⟩ | ⟨heq, -⟩
      · exact .inr heq
      · omega
    · rw [addW_assoc, hsrc]
      congr 1
      omega
    · rw [show (start + size - 1) / pgSize = la / pgSize by unfold pgSize at *; omega, hpage]

/-- The loop that clears pages, from the end of the file part on. -/
theorem zeroLoop_filled (h : SegFilled d perm va g P B m role s₀ start s) (hle : start ≤ stop)
    (hin : start < stop → InPage start la ∧ (start = va ∨ start = la)) (hz : ∀ j, start ≤ va + j → g j = 0)
    (hc : (Mem.segEnv d perm).zeroLoop stop s start la fuel = some (b, t)) :
    if b then SegFilled d perm va g P B m role s₀ stop t else s₀.oom < t.oom := by
  have hs' : stop < 2 ^ 64 := by
    unfold userTop at hs
    omega
  have hor : InPage start la ∨ ¬ start < stop := (Classical.em (start < stop)).imp (fun hlt => (hin hlt).1) id
  have hloop := zeroLoop_pages (fun start' la s => SegFilled d perm va g P B m role s₀ start' s ∧
      (start' < stop → start' = va ∨ start' = la) ∧ start ≤ start' ∧ start' ≤ stop)
    (fun t => s₀.oom < t.oom) ?_ ?_ hs' hor ⟨h, fun hlt => (hin hlt).2, Nat.le_refl _, hle⟩ hc
  · cases b with
    | false => exact hloop
    | true =>
      obtain ⟨start', la', hge, hf, -, -, hle'⟩ := hloop
      obtain rfl : start' = stop := by omega
      exact hf
  · rintro s start' la t ⟨hf, hat, -, -⟩ hin hlt ha
    exact hf.failed hp hd hb hs hn hin hlt (hat hlt) ha
  · rintro s start' la p t u ⟨hf, hat, hst, -⟩ hin hlt ha hc
    have hva := hf.le
    obtain ⟨hoff, hpos, hend, haddr⟩ := segChunk_pos hin hlt hs
    have hlast := segChunk_le hin hlt hs
    have hnext := segChunk_next hin hlt hs'
    have hnone := segPage_none hn hin hlt hva
    rw [haddr] at hnext ⊢
    rw [segEnv_memset, hoff] at hc
    generalize (segChunk start' la stop).2 = size at *
    have hread (role₁ : Nat → Role) (_ : Adds d m t role role₁) (i : Nat) (_ : i < size) :
        0 = g (start' - va + i) := (hz _ (by omega)).symm
    have hf' := hf.chunk hp hd hb hin.aligned hin.le (Nat.lt_of_lt_of_le hlt hs) (hat hlt) hpos hnone ha hc hread
    refine ⟨hf'.1, fun hlt' => ?_, by omega, hlast⟩
    rcases hnext with ⟨-, heq, -⟩ | ⟨heq, -⟩
    · exact .inr heq
    · omega

/-- The bss part, from the last page of the file part on. -/
theorem bssPart_filled (h : SegFilled d perm va g P B m role s₀ start s) (hle : start ≤ stop)
    (hla : la % pgSize = 0) (hend : la < start + pgSize) (hin : start < la → va < start ∧
      page = some (ptePpn (s.pteAt d ((start - 1) / pgSize)))) (hat : ¬ start < la →
      InPage start la ∧ (start = va ∨ start = la)) (hz : ∀ j, start ≤ va + j → g j = 0)
    (hr : (Mem.segEnv d perm).bssPart stop s page start la = some (b, t)) :
    if b then SegFilled d perm va g P B m role s₀ stop t else s₀.oom < t.oom := by
  rcases bssPart_cases hr with ⟨-, rfl, rfl, rfl⟩ |
    ⟨hlt, hne, p, s₁, s₂, off, size, hc, hpage, hm, ha, hrest⟩ | ⟨hge, hrest⟩
  · exact h
  · obtain ⟨hva, hpage'⟩ := hin hlt
    have hlt' : start < stop := Nat.lt_of_le_of_ne hle hne
    have hpg : pgSize ≤ la := by
      unfold pgSize at *
      omega
    have hl : la < 2 ^ 64 := by
      unfold userTop at hs
      unfold pgSize at *
      omega
    have hin' : InPage start (la - pgSize) := by
      refine ⟨?_, ?_, ?_⟩ <;> unfold pgSize at * <;> omega
    rw [bssChunk_eq hin' hpg hl] at hc
    obtain ⟨hoff, hpos, hstop, haddr⟩ := segChunk_pos hin' hlt' hs
    have hlast := segChunk_le hin' hlt' hs
    have hnext := segChunk_next hin' hlt' (Nat.lt_of_le_of_lt hs (by unfold userTop; omega))
    have hnla : addW (la - pgSize) pgSize = la := by
      unfold addW
      rw [Nat.sub_add_cancel hpg, Nat.mod_eq_of_lt hl]
    rw [hnla, haddr] at hnext
    have hfst : (segChunk start (la - pgSize) stop).1 = off := by rw [hc]
    have hsnd : (segChunk start (la - pgSize) stop).2 = size := by rw [hc]
    rw [hfst] at hoff
    rw [hsnd] at hpos hstop haddr hlast hnext
    have hmap : ptePpn (s.pteAt d ((la - pgSize) / pgSize)) = p := by
      have hv : (start - 1) / pgSize = (la - pgSize) / pgSize := by
        unfold pgSize at *
        omega
      rw [hpage, hv] at hpage'
      exact (Option.some.inj hpage').symm
    rw [segEnv_memset, hoff] at hm
    have hf := h.rest hd hin'.aligned (by omega) hva (Nat.lt_of_lt_of_le hlt' hs) hmap hm fun i _ =>
      (hz (start - va + i) (by omega)).symm
    have hs₂ : s₂ = s₁ := by
      unfold Mem.segEnv at ha
      dsimp only at ha
      split at ha <;> cases ha
      rfl
    rw [hs₂, haddr] at hrest
    refine zeroLoop_filled hp hd hb hs hn hf hlast (fun hlt => ?_) (fun j hj => hz j (by omega)) hrest
    rcases hnext with ⟨hin, heq, -⟩ | ⟨heq, -⟩
    · exact ⟨hin, .inr heq⟩
    · omega
  · exact zeroLoop_filled hp hd hb hs hn h hle (fun _ => hat hge) hz hrest

end

/-- What a segment puts at the address `p_va + i`. -/
def ProgHdr.byte (m : Mem A) (binary : Nat) (ph : ProgHdr) (i : Nat) : BitVec 8 :=
  if i < ph.pFilesz.toNat then m.kbytes (addW binary ph.pOffset.toNat) i else 0

/-- A segment that lies below the top of the user half, in pages that are not mapped yet. -/
theorem loadSegment_filled (h : Filled d P B m s₀ role role') (hp : s₀.Plain) (hd : role d = .node d [])
    (hb : PermBits perm) (hs : ph.pVa.toNat + ph.pMemsz.toNat ≤ userTop) (hsz : ph.pFilesz.toNat ≤ ph.pMemsz.toNat)
    (hn : ∀ v, ph.pVa.toNat / pgSize ≤ v → v * pgSize < ph.pVa.toNat + ph.pMemsz.toNat → P v = none)
    (himg : ∀ j < ph.pFilesz.toNat, KernUsed role d (addW (addW binary ph.pOffset.toNat) j))
    (hr : (Mem.segEnv d perm).loadSegment s₀ binary ph = some (b, t)) :
    if b then SegFilled d perm ph.pVa.toNat (ph.byte m binary) P B m role s₀
      (ph.pVa.toNat + ph.pMemsz.toNat) t else s₀.oom < t.oom := by
  generalize hva : ph.pVa.toNat = va at *
  have hfile : addW va ph.pFilesz.toNat = va + ph.pFilesz.toNat ∧
      addW va ph.pMemsz.toNat = va + ph.pMemsz.toNat := by
    unfold userTop at hs
    unfold addW
    omega
  have hz (j : Nat) (hj : va + ph.pFilesz.toNat ≤ va + j) : ph.byte m binary j = 0 := if_neg (by omega)
  have h₀ : SegFilled d perm va (ph.byte m binary) P B m role s₀ va s₀ := by
    refine ⟨⟨role', ?_⟩, .refl _, Nat.le_refl _, Nat.le_refl _⟩
    rw [mapPages_empty (Nat.lt_irrefl _), knowBytes_empty (Nat.lt_irrefl _)]
    exact h
  obtain ⟨r, s₁, hc, hrest⟩ := loadSegment_cases hr
  rw [hva, hfile.1] at hc
  rw [hva, hfile.2] at hrest
  by_cases hlt : va < va + ph.pFilesz.toNat
  · have hcopy := copyLoop_filled hp hd hb (by omega) (fun v h₁ h₂ => hn v h₁ (by omega)) h₀ hlt
      (fun j hj => himg j (by omega)) (fun j hj => if_pos (by omega)) hc
    rcases hrest with ⟨rfl, rfl, rfl⟩ | ⟨page, start, la, rfl, hbss⟩
    · exact hcopy.1 rfl
    · obtain ⟨rfl, h₁, h₂, h₃, hf, hpage⟩ := hcopy.2 page start la rfl
      exact bssPart_filled hp hd hb hs hn hf (by omega) h₃ h₂ (fun _ => ⟨hlt, hpage⟩)
        (fun hge => ⟨⟨h₃, by omega, by unfold pgSize; omega⟩, .inr (by omega)⟩) hz hbss
  · obtain ⟨rfl, rfl⟩ := copyLoop_empty hlt hc
    rcases hrest with ⟨hno, -⟩ | ⟨page, start, la, hsome, hbss⟩
    · cases hno
    · cases hsome
      have hin : InPage va (roundDown va pgSize) := by
        refine ⟨?_, ?_, ?_⟩ <;> unfold roundDown pgSize <;> omega
      have hle := hin.le
      exact bssPart_filled hp hd hb hs hn h₀ (by omega) hin.aligned
        (Nat.lt_of_le_of_lt hle (Nat.lt_add_of_pos_right (by decide))) (fun hc => by omega)
        (fun _ => ⟨hin, .inl rfl⟩) (fun j hj => hz j (by omega)) hbss

end

end UCore
