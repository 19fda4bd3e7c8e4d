import UCore.Process.FrameSpaces

namespace UCore
set_option autoImplicit true
open Function (update)

section
variable {A : PhysSys} {m m' m'' : Mem A} {s : A.σ} {S : Nat → Prop} {procs : Finset Nat}

theorem touch_pgdir (hr : m.touch x addr perm fuel = some r) : ∃ d, (m.mms x).pgdir = some d := by
  cases fuel with
  | zero => cases hr
  | succ fuel =>
    obtain ⟨d, hd, -⟩ := Option.bind_eq_some_iff.1 hr
    exact ⟨d, hd⟩

namespace SpaceFrames

/-- Operations that change no frame and no `mm_struct`. -/
theorem calm (h : SpaceFrames S m) (hs : SameSpaces m m') (hf : m'.frame = m.frame)
    (hu : ∃ role, FrameUse m.dirs S m' role) (own : Option Nat) : Inside S own m m' :=
  (h.apartFrom hs.spaces (fun x _ => hs.map x) hu (.of_frame hf)).widen own

theorem findVma (h : SpaceFrames S m) (hf : m.findVma mm addr = (r, m')) (own : Option Nat) : Inside S own m m' := by
  obtain ⟨role, hu⟩ := h.use
  obtain ⟨hu', hfr⟩ := hu.findVma hf
  exact h.calm (.findVma hf) hfr ⟨role, hu'⟩ own

theorem userMemCheck (h : SpaceFrames S m) (hc : m.userMemCheck mm addr len w = some (b, m')) (own : Option Nat) :
    Inside S own m m' := by
  obtain ⟨role, hu⟩ := h.use
  obtain ⟨hu', hfr⟩ := hu.userMemCheck hc
  exact h.calm (.userMemCheck hc) hfr ⟨role, hu'⟩ own

/-- `do_pgfault` for any address. It changes the faulting address space only. -/
theorem doPgfault (h : SpaceFrames S m) (hk : HeapOk m procs) (hx : ∀ x, mm = some x → x ∈ m.spaces)
    (hr : m.doPgfault mm addr = some (ret, m')) : Inside S mm m m' := by
  cases mm with
  | none =>
    cases hr
    exact .refl h none
  | some x =>
    have hx := hx x rfl
    cases hf : m.findVma (some x) addr with
    | mk r m₁ =>
      cases r with
      | none =>
        rw [Mem.doPgfault, hf] at hr
        cases hr
        exact h.findVma hf _
      | some vma =>
        obtain ⟨-, -, hfound⟩ := findVma_some (hk.tidy x hx).cache hf
        obtain ⟨hvma, hcov⟩ := hfound vma rfl
        have htop := h.low x hx vma hvma
        have hv : vpn (roundDown addr pgSize) < userVpn := by
          have hlt := hcov.2
          rw [vpn_roundDown]
          unfold userTop at htop
          unfold vpn userVpn
          omega
        cases hpg : (m.mms x).pgdir with
        | none =>
          rw [Mem.doPgfault, hf] at hr
          dsimp only at hr
          rw [if_neg (Nat.not_lt.2 hcov.1), Option.bind_eq_bind, Option.bind_some,
            SameSpaces.pgdir (.findVma hf), hpg] at hr
          cases hr
        | some d =>
          obtain ⟨role, hu⟩ := h.use
          exact h.within (.doPgfault hr) hx hpg (hu.doPgfault hpg (mem_dirs.2 ⟨x, hx, hpg⟩) hv hr)

theorem pgfaultHandler (h : SpaceFrames S m) (hk : HeapOk m procs) (hx : ∀ x, mm = some x → x ∈ m.spaces)
    (hr : m.pgfaultHandler mm addr = some (ret, m')) : Inside S mm m m' := by
  unfold Mem.pgfaultHandler at hr
  split at hr
  · cases hr
  · exact h.doPgfault hk hx hr

/-- An access of the kernel through an address space ends at a page that is mapped there. -/
theorem touch (h : SpaceFrames S m) (hk : HeapOk m procs) (hx : x ∈ m.spaces) (hpg : (m.mms x).pgdir = some d)
    (hr : m.touch x addr perm fuel = some ((f, off), m')) :
    Inside S (some x) m m' ∧ SameSpaces m m' ∧ m'.mapped (d, vpn addr) = some f := by
  induction fuel generalizing m with
  | zero => cases hr
  | succ fuel ih =>
    obtain ⟨d', hd', hr⟩ := Option.bind_eq_some_iff.1 hr
    obtain rfl := Option.some.inj (hd'.symm.trans hpg)
    split at hr
    · rename_i pa flags hft
      obtain ⟨g, hg, he⟩ := Option.map_eq_some_iff.1 hr
      cases he
      obtain ⟨ht, -⟩ := Option.filter_eq_some_iff.1 hft
      unfold Mem.translate at ht
      split at ht
      · rename_i hval
        obtain ⟨rfl, -⟩ := Prod.mk.inj (Option.some.inj ht)
        have hdiv (n : Nat) : (n * pgSize + addr % pgSize) / pgSize = n := by
          unfold pgSize
          omega
        rw [hdiv] at hg
        exact ⟨.refl h _, .refl _, pteFrame_eq_some.2 ⟨hval, kva_some hg⟩⟩
      · cases ht
    · obtain ⟨⟨ret, m₁⟩, hf, hr⟩ := Option.bind_eq_some_iff.1 hr
      dsimp only at hr
      split at hr
      · cases hr
      · have hs₁ : SameSpaces m m₁ := .pgfaultHandler hf
        have hin := h.pgfaultHandler hk (fun y hy => Option.some.inj hy ▸ hx) hf
        obtain ⟨h', hs', hm⟩ := ih hin.frames (hk.same hs₁) (hs₁.spaces ▸ hx) (hs₁.pgdir x ▸ hpg) hr
        exact ⟨hin.trans h', hs₁.trans hs', hm⟩

theorem readByte (h : SpaceFrames S m) (hk : HeapOk m procs) (hx : ∀ x, mm = some x → x ∈ m.spaces)
    (hr : m.readByte mm addr = some m') : Inside S mm m m' := by
  cases mm with
  | none =>
    obtain ⟨b, -, hr⟩ := Option.map_eq_some_iff.1 hr
    cases hr
    exact .refl h none
  | some x =>
    obtain ⟨⟨⟨f, off⟩, m₁⟩, ht, hr⟩ := Option.map_eq_some_iff.1 hr
    cases hr
    obtain ⟨d, hpg⟩ := touch_pgdir ht
    exact (h.touch hk (hx x rfl) hpg ht).1

theorem readBytes (h : SpaceFrames S m) (hk : HeapOk m procs) (hx : ∀ x, mm = some x → x ∈ m.spaces)
    (hr : m.readBytes mm addr len = some m') : Inside S mm m m' := by
  induction len generalizing m addr with
  | zero =>
    cases hr
    exact .refl h mm
  | succ len ih =>
    obtain ⟨m₁, hb, hr⟩ := Option.bind_eq_some_iff.1 hr
    have hs : SameSpaces m m₁ := .readByte hb
    have hin := h.readByte hk hx hb
    exact hin.trans (ih hin.frames (hk.same hs) (fun x he => hs.spaces ▸ hx x he) hr)

theorem writeByte (h : SpaceFrames S m) (hk : HeapOk m procs) (hx : x ∈ m.spaces) (ha : addr < 2 ^ 38)
    (hr : m.writeByte (some x) addr b = some m') : Inside S (some x) m m' := by
  obtain ⟨⟨⟨f, off⟩, m₁⟩, ht, hw⟩ := Option.bind_eq_some_iff.1 hr
  obtain ⟨d, hpg⟩ := touch_pgdir ht
  obtain ⟨hin, hs, hm⟩ := h.touch hk hx hpg ht
  have hx₁ : x ∈ m₁.spaces := hs.spaces ▸ hx
  have hpg₁ : (m₁.mms x).pgdir = some d := (hs.pgdir x).trans hpg
  have hd := mem_dirs.2 ⟨x, hx₁, hpg₁⟩
  have hv : vpn addr < userVpn := by
    unfold vpn userVpn
    omega
  obtain ⟨role, hu⟩ := hin.frames.use
  refine hin.trans (hin.frames.within (.writePage hw) hx₁ hpg₁ ?_)
  dsimp only at hw
  unfold Mem.writePage at hw
  split at hw
  · cases hw
    exact ⟨role, hu.write (hu.mapped_leaf hd hv hm) _, hu.spares_page hd hv hm _⟩
  · cases hw

theorem writeInt (h : SpaceFrames S m) (hk : HeapOk m procs) (hx : x ∈ m.spaces) (ha : addr + n ≤ 2 ^ 38)
    (hr : m.writeInt (some x) addr v n = some m') : Inside S (some x) m m' := by
  induction n generalizing m addr v with
  | zero =>
    cases hr
    exact .refl h _
  | succ n ih =>
    obtain ⟨m₁, hb, hr⟩ := Option.bind_eq_some_iff.1 hr
    have hs : SameSpaces m m₁ := .writeByte hb
    have hin := h.writeByte hk hx (by omega) hb
    refine hin.trans (ih hin.frames (hk.same hs) (hs.spaces ▸ hx) ?_ hr)
    unfold addW
    omega

end SpaceFrames

end

end UCore
