import Mathlib.Algebra.Order.Ring.Nat
import UCore.Mm.FrameVmm
import UCore.Process.LoadCreated
import UCore.Process.LoadFilled
import UCore.Process.SegBounds

namespace UCore
set_option autoImplicit true

section
variable {A : PhysSys} {m m' : Mem A} {role role' : Nat → Role} {dirs : Finset Nat} {S : Nat → Prop}

/-- There are not more pages that are mapped than frames. -/
theorem FrameUse.mapped_le (h : FrameUse dirs S m role) (hd : d ∈ dirs) (hv : ∀ k < n, v + k < userVpn)
    (hm : ∀ k < n, (m.mapped (d, v + k)).isSome) : n ≤ npage := by
  have hmap : ∀ k ∈ Finset.range n, (m.mapped (d, v + k)).getD 0 ∈ Finset.range npage := by
    intro k hk
    rw [Finset.mem_range] at hk
    obtain ⟨p, hp⟩ := Option.isSome_iff_exists.1 (hm k hk)
    rw [hp, Option.getD_some, Finset.mem_range]
    exact (h.paged.pool p (by rw [h.mapped_leaf hd (hv k hk) hp]; simp)).2.1
  have hinj : Set.InjOn (fun k => (m.mapped (d, v + k)).getD 0) (Finset.range n) := by
    intro k hk l hl he
    rw [Finset.mem_coe, Finset.mem_range] at hk hl
    obtain ⟨p, hp⟩ := Option.isSome_iff_exists.1 (hm k hk)
    obtain ⟨q, hq⟩ := Option.isSome_iff_exists.1 (hm l hl)
    dsimp only at he
    rw [hp, hq, Option.getD_some, Option.getD_some] at he
    have hsame := h.sole (d, v + k) (mem_userSlots.2 ⟨hd, hv k hk⟩) (d, v + l) (mem_userSlots.2 ⟨hd, hv l hl⟩) p hp
      (he ▸ hq)
    have hvl := congrArg Prod.snd hsame
    dsimp only at hvl
    omega
  have hcard := Finset.card_le_card_of_injOn _ hmap hinj
  rwa [Finset.card_range, Finset.card_range] at hcard

/-- A loop over the pages of a segment has come from the page number `v` to the address `la`, and `page` is one of the
pages that it has mapped. -/
def SegFrames (dirs : Finset Nat) (S : Nat → Prop) (d v : Nat) (m : Mem A) (la : Nat) (page : Option Nat) (s : Mem A) :
    Prop :=
  ∃ role n, FrameUse dirs S s role ∧ n ≤ npage ∧ la = (v + n) * pgSize ∧ (∀ k < n, (s.mapped (d, v + k)).isSome) ∧
    (∀ p, page = some p → ∃ k < n, s.mapped (d, v + k) = some p) ∧ Spares (dirs.erase d) m s

theorem SegFrames.init (h : FrameUse dirs S m role) (v : Nat) : SegFrames dirs S d v m (v * pgSize) none m :=
  ⟨role, 0, h, Nat.zero_le _, rfl, nofun, nofun, .refl ..⟩

namespace SegFrames
variable {s t u : Mem A}

theorem use (h : SegFrames dirs S d v m la page s) : ∃ role, FrameUse dirs S s role ∧ Spares (dirs.erase d) m s := by
  obtain ⟨role, n, h, -, -, -, -, hs⟩ := h
  exact ⟨role, h, hs⟩

theorem forget (h : SegFrames dirs S d v m la page s) : SegFrames dirs S d v m la none s := by
  obtain ⟨role, n, h, hn, hla, hm, -, hs⟩ := h
  exact ⟨role, n, h, hn, hla, hm, nofun, hs⟩

/-- The next page. There cannot be more than there are frames, so that the address stays in the user half. -/
theorem alloc (h : SegFrames dirs S d v m la page s) (hd : d ∈ dirs) (hv : v < 2 ^ 19) (hb : PermBits perm)
    (ha : s.pgdirAllocPage d la perm = some (r, t)) :
    (r = none → ∃ role, FrameUse dirs S t role ∧ Spares (dirs.erase d) m t) ∧
      ∀ p, r = some p → SegFrames dirs S d v m (addW la pgSize) (some p) t := by
  obtain ⟨role, n, h, hn, rfl, hm, -, hs⟩ := h
  unfold npage at hn
  have hslot (k : Nat) (hk : k ≤ n) : v + k < userVpn := by
    unfold userVpn
    omega
  have hvpn : vpn ((v + n) * pgSize) = v + n := by
    unfold vpn pgSize
    omega
  obtain ⟨role', h', hs', hnew, hother⟩ := h.pgdirAllocPage hd (by rw [hvpn]; exact hslot n (Nat.le_refl _)) hb ha
  rw [hvpn] at hnew hother
  refine ⟨fun _ => ⟨role', h', hs.trans hs'⟩, fun p hp => ?_⟩
  have hmapped (k : Nat) (hk : k < n + 1) : (t.mapped (d, v + k)).isSome := by
    rcases Nat.lt_succ_iff_lt_or_eq.1 hk with hk | rfl
    · rw [hother _ (mem_userSlots.2 ⟨hd, hslot k (Nat.le_of_lt hk)⟩) fun he => ?_]
      · exact hm k hk
      · have hkn := congrArg Prod.snd he
        dsimp only at hkn
        omega
    · rw [hnew p hp]
      rfl
  have hle : n + 1 ≤ npage := h'.mapped_le hd (fun k hk => hslot k (Nat.le_of_lt_succ hk)) hmapped
  refine ⟨role', n + 1, h', hle, ?_, hmapped, fun q hq => ⟨n, Nat.lt_succ_self n, ?_⟩, hs.trans hs'⟩
  · unfold npage at hle
    unfold addW pgSize
    omega
  · cases hq
    exact hnew p hp

/-- The page is filled. -/
theorem write (h : SegFrames dirs S d v m la (some p) s) (hd : d ∈ dirs) (hv : v < 2 ^ 19)
    (hw : s.writePage p off size src = some u) : SegFrames dirs S d v m la (some p) u := by
  obtain ⟨role, n, h, hn, rfl, hm, hp, hs⟩ := h
  obtain ⟨k, hk, hkp⟩ := hp p rfl
  have hslot (k : Nat) (hk : k < n) : v + k < userVpn := by
    unfold npage at hn
    unfold userVpn
    omega
  have hleaf := h.mapped_leaf hd (hslot k hk) hkp
  unfold Mem.writePage at hw
  split at hw
  · obtain rfl := Option.some.inj hw
    generalize (s.frame p).fill off size src = w
    have hsame (k : Nat) (hk : k < n) : (s.setFrame p w).mapped (d, v + k) = s.mapped (d, v + k) := by
      have hpte : (s.setFrame p w).pteAt d (v + k) = s.pteAt d (v + k) := h.toCounted.pteAt_write hleaf w hd (hslot k hk)
      rw [Mem.mapped, hpte]
      rfl
    refine ⟨role, n, h.write hleaf w, hn, rfl, fun k hk => ?_, fun q hq => ⟨k, hk, ?_⟩, hs.trans ?_⟩
    · rw [hsame k hk]
      exact hm k hk
    · cases hq
      rw [hsame k hk]
      exact hkp
    · exact h.spares_page hd (hslot k hk) hkp w
  · cases hw

theorem zeroLoop (h : SegFrames dirs S d v m la page s) (hd : d ∈ dirs) (hv : v < 2 ^ 19) (hb : PermBits perm)
    (hr : (Mem.segEnv d perm).zeroLoop stop s start la fuel = some (b, t)) :
    ∃ role, FrameUse dirs S t role ∧ Spares (dirs.erase d) m t := by
  have hl := zeroLoop_inv (fun _ la s => SegFrames dirs S d v m la none s)
    (fun t => ∃ role, FrameUse dirs S t role ∧ Spares (dirs.erase d) m t) ?_ ?_ h.forget hr
  · cases b with
    | false => exact hl
    | true =>
      obtain ⟨_, la, -, hl⟩ := hl
      exact hl.use
  · exact fun s start la t hs _ ha => (hs.alloc hd hv hb ha).1 rfl
  · intro s start la p t u hs _ ha hw
    generalize segChunk start la stop = c at hw
    exact (((hs.alloc hd hv hb ha).2 p rfl).write hd hv hw).forget

theorem bssPart (h : SegFrames dirs S d v m la page s) (hd : d ∈ dirs) (hv : v < 2 ^ 19) (hb : PermBits perm)
    (hr : (Mem.segEnv d perm).bssPart stop s page start la = some (b, t)) :
    ∃ role, FrameUse dirs S t role ∧ Spares (dirs.erase d) m t := by
  rcases bssPart_cases hr with ⟨-, -, -, rfl⟩ | ⟨-, -, p, s₁, s₂, off, size, -, rfl, hw, ha, hz⟩ | ⟨-, hz⟩
  · exact h.use
  · have hs : s₁ = s₂ := by
      dsimp only [Mem.segEnv] at ha
      split at ha
      · exact Option.some.inj ha
      · cases ha
    rw [← hs] at hz
    exact (h.write hd hv hw).zeroLoop hd hv hb hz
  · exact h.zeroLoop hd hv hb hz

end SegFrames

/-- A segment fills pages of its directory only. -/
theorem FrameUse.loadSegment (h : FrameUse dirs S m role) (hd : d ∈ dirs) (hb : PermBits perm)
    (hu : roundDown ph.pVa.toNat pgSize < userTop) (hr : (Mem.segEnv d perm).loadSegment m binary ph = some (b, m')) :
    ∃ role', FrameUse dirs S m' role' ∧ Spares (dirs.erase d) m m' := by
  obtain ⟨r, m₁, hc, hr⟩ := loadSegment_cases hr
  have hla : roundDown ph.pVa.toNat pgSize = ph.pVa.toNat / pgSize * pgSize := by
    unfold roundDown pgSize
    omega
  have hv : ph.pVa.toNat / pgSize < 2 ^ 19 := by
    unfold roundDown userTop pgSize at *
    omega
  rw [hla] at hc
  generalize ph.pVa.toNat / pgSize = v at hc hv
  have hl := copyLoop_inv (fun _ la _ page s => SegFrames dirs S d v m la page s)
    (fun t => ∃ role, FrameUse dirs S t role ∧ Spares (dirs.erase d) m t) ?_ ?_ (SegFrames.init h v) hc
  · rcases hr with ⟨hno, -, rfl⟩ | ⟨page, start, la, rfl, hbss⟩
    · exact hl.1 hno
    · obtain ⟨-, -, hl⟩ := hl.2 page start la rfl
      exact hl.bssPart hd hv hb hbss
  · exact fun s page start la src t hs _ ha => (hs.alloc hd hv hb ha).1 rfl
  · intro s page start la src p t u hs _ ha hw
    generalize segChunk start la (addW ph.pVa.toNat ph.pFilesz.toNat) = c at hw
    have hw : t.memcpyPage p c.1 src c.2 = some u := hw
    unfold Mem.memcpyPage at hw
    split at hw
    · exact ((hs.alloc hd hv hb ha).2 p rfl).write hd hv hw
    · cases hw

namespace FrameUse

theorem loadSegments (h : FrameUse dirs S m role) (hpg : (m.mms mm).pgdir = some d) (hd : d ∈ dirs)
    (hr : m.loadSegments mm binary phEnd ph fuel = some (ret, m')) :
    ∃ role', FrameUse dirs S m' role' ∧ Spares (dirs.erase d) m m' ∧ SameDirs m m' := by
  induction fuel generalizing m role ph with
  | zero => cases hr
  | succ fuel ih =>
    rw [Mem.loadSegments] at hr
    split at hr
    · obtain ⟨hdr, -, hr⟩ := Option.bind_eq_some_iff.1 hr
      split at hr
      · exact ih h hpg hr
      · split at hr
        · cases hr
          exact ⟨role, h, .refl .., .of_mms rfl⟩
        · obtain ⟨⟨r, m₁⟩, hmap, hr⟩ := Option.bind_eq_some_iff.1 hr
          obtain ⟨role₁, h₁, hf₁, hdirs₁⟩ := h.mmMap hmap
          have hs₁ : Spares (dirs.erase d) m m₁ := .of_frame hf₁
          dsimp only at hr
          split at hr
          · cases hr
            exact ⟨role₁, h₁, hs₁, hdirs₁⟩
          · rename_i hz
            obtain rfl := not_not.1 hz
            obtain ⟨d', hd', hr⟩ := Option.bind_eq_some_iff.1 hr
            rw [hdirs₁.pgdir, hpg] at hd'
            cases hd'
            obtain ⟨⟨ok, m₂⟩, hseg, hr⟩ := Option.bind_eq_some_iff.1 hr
            have hacc := mmMap_access hmap
            obtain ⟨role₂, h₂, hs₂⟩ := h₁.loadSegment hd (permBits_segPerm _)
              (Nat.lt_of_lt_of_le hacc.2.1 hacc.2.2) hseg
            have hs₂ := hs₁.trans hs₂
            have hdirs₂ := hdirs₁.trans (.of_same (.loadSegment hseg))
            cases ok with
            | false =>
              cases hr
              exact ⟨role₂, h₂, hs₂, hdirs₂⟩
            | true =>
              obtain ⟨role', h', hs', hdirs'⟩ := ih h₂ (by rw [hdirs₂.pgdir, hpg]) hr
              exact ⟨role', h', hs₂.trans hs', hdirs₂.trans hdirs'⟩
    · cases hr
      exact ⟨role, h, .refl .., .of_mms rfl⟩

theorem stackPage (h : FrameUse dirs S m role) (hd : d ∈ dirs) (hv : vpn la < userVpn)
    (hr : m.stackPage d la = some m') : ∃ role', FrameUse dirs S m' role' ∧ Spares (dirs.erase d) m m' := by
  obtain ⟨⟨p, m₁⟩, ha, hr⟩ := Option.bind_eq_some_iff.1 hr
  cases p with
  | none => cases hr
  | some p =>
    cases hr
    obtain ⟨role', h', hs, -⟩ := h.pgdirAllocPage hd hv (by decide) ha
    exact ⟨role', h', hs⟩

theorem loadStack (h : FrameUse dirs S m role) (hpg : (m.mms mm).pgdir = some d) (hd : d ∈ dirs)
    (hr : m.loadStack mm = some (ret, m')) :
    ∃ role', FrameUse dirs S m' role' ∧ Spares (dirs.erase d) m m' ∧ SameDirs m m' := by
  obtain ⟨⟨r, m₁⟩, hmap, hr⟩ := Option.bind_eq_some_iff.1 hr
  obtain ⟨role₁, h₁, hf₁, hdirs₁⟩ := h.mmMap hmap
  have hs₁ : Spares (dirs.erase d) m m₁ := .of_frame hf₁
  dsimp only at hr
  split at hr
  · cases hr
    exact ⟨role₁, h₁, hs₁, hdirs₁⟩
  · obtain ⟨d', hd', hr⟩ := Option.bind_eq_some_iff.1 hr
    rw [hdirs₁.pgdir, hpg] at hd'
    cases hd'
    obtain ⟨m₂, hp₂, hr⟩ := Option.bind_eq_some_iff.1 hr
    obtain ⟨m₃, hp₃, hr⟩ := Option.bind_eq_some_iff.1 hr
    obtain ⟨m₄, hp₄, hr⟩ := Option.bind_eq_some_iff.1 hr
    obtain ⟨m₅, hp₅, hr⟩ := Option.bind_eq_some_iff.1 hr
    cases hr
    obtain ⟨role₂, h₂, hs₂⟩ := h₁.stackPage hd (by decide) hp₂
    obtain ⟨role₃, h₃, hs₃⟩ := h₂.stackPage hd (by decide) hp₃
    obtain ⟨role₄, h₄, hs₄⟩ := h₃.stackPage hd (by decide) hp₄
    obtain ⟨role₅, h₅, hs₅⟩ := h₄.stackPage hd (by decide) hp₅
    have hsame := ((SameSpaces.stackPage hp₂).trans (.stackPage hp₃)).trans ((SameSpaces.stackPage hp₄).trans (.stackPage hp₅))
    exact ⟨role₅, h₅, hs₁.trans ((hs₂.trans hs₃).trans (hs₄.trans hs₅)), hdirs₁.trans (.of_same hsame)⟩

/-- An address space is taken down, and its frames are given back or lost. -/
theorem badCleanupMmap (h : FrameUse dirs S m role) (hpg : (m.mms mm).pgdir = some d) (hd : d ∈ dirs)
    (hr : m.badCleanupMmap mm = some m') :
    ∃ role', FrameUse (dirs.erase d) S m' role' ∧ Spares (dirs.erase d) m m' := by
  obtain ⟨m₁, he, hr⟩ := Option.bind_eq_some_iff.1 hr
  obtain ⟨m₂, hp, hr⟩ := Option.bind_eq_some_iff.1 hr
  obtain ⟨role₁, h₁, hs₁⟩ := h.exitMmap hpg hd he
  obtain ⟨role₂, h₂, hs₂⟩ := h₁.putPgdir (by rw [SameSpaces.pgdir (.exitMmap he), hpg]) hd hp
  obtain ⟨role₃, h₃, hf₃⟩ := h₂.mmDestroy hr
  exact ⟨role₃, h₃, (hs₁.trans hs₂).trans (.of_frame hf₃)⟩

end FrameUse

end

end UCore
