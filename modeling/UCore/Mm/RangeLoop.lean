import UCore.Mm.GetPte

namespace UCore
set_option autoImplicit true

/-- What `rangeLoop` does at one address. -/
def Mem.pageStep {A : PhysSys} (body : Mem A → Nat → Nat → Nat → Option (Bool × Mem A)) (pgdir : Nat) :
    Mem A → Nat → Option (Bool × Mem A) :=
  strideStep (fun m start => m.getPte pgdir start false) fun m start slot => body m start slot.1 slot.2

/-- The addresses of the pages of a range. -/
def pagesOf (start stop : Nat) : List Nat := addrsOf pgSize start stop

section
variable {A : PhysSys} {m : Mem A}

theorem mem_pagesOf (hs : start % pgSize = 0) (he : stop % pgSize = 0) :
    la ∈ pagesOf start stop ↔ la % pgSize = 0 ∧ start ≤ la ∧ la < stop :=
  mem_addrsOf (by decide) hs he

/-- The pages of a range of the user, by address and by number. -/
theorem vpn_pagesOf (h : UserAccess start stop) (hs : start % pgSize = 0) (he : stop % pgSize = 0)
    (hm : la ∈ pagesOf start stop) : vpn la < userVpn ∧ vpn la * pgSize = la := by
  obtain ⟨hmod, -, hlt⟩ := (mem_pagesOf hs he).1 hm
  have htop := h.2.2
  unfold userTop at htop
  unfold vpn userVpn
  unfold pgSize at *
  omega

theorem exists_mem_pagesOf (h : UserAccess start stop) (hs : start % pgSize = 0) (he : stop % pgSize = 0) :
    (∃ la ∈ pagesOf start stop, vpn la = v) ↔ start ≤ v * pgSize ∧ v * pgSize < stop := by
  constructor
  · rintro ⟨la, hla, rfl⟩
    rw [(vpn_pagesOf h hs he hla).2]
    exact ((mem_pagesOf hs he).1 hla).2
  · intro hv
    have hla : v * pgSize ∈ pagesOf start stop := (mem_pagesOf hs he).2 ⟨Nat.mul_mod_left .., hv⟩
    refine ⟨_, hla, ?_⟩
    exact Nat.eq_of_mul_eq_mul_right (by decide) (vpn_pagesOf h hs he hla).2

theorem nodup_pagesOf (start stop : Nat) : (pagesOf start stop).Nodup :=
  List.nodup_range' pgSize (by decide)

theorem nextPage_eq (a : Nat) : Mem.nextPage a = a + pgSize := by
  unfold Mem.nextPage
  rfl

/-- The address of the next table. -/
theorem nextTableStart_spec (start : Nat) : Mem.nextTableStart start % pgSize = 0 ∧
    start < Mem.nextTableStart start ∧
    ∀ a, start ≤ a → a < Mem.nextTableStart start → start / ptSize = a / ptSize := by
  unfold Mem.nextTableStart roundDown ptSize pgSize nPteEntry
  refine ⟨?_, ?_, fun a h₁ h₂ => ?_⟩
  · omega
  · omega
  · omega

/-- Whether tables are missing is the same for all addresses of a table. -/
theorem pteSlot_none (h : m.pteSlot d la = some none) (hb : la / ptSize = lb / ptSize) :
    m.pteSlot d lb = some none := by
  unfold ptSize pgSize nPteEntry at hb
  have h1 : pdx1 lb = pdx1 la := by
    unfold pdx1
    omega
  have h0 : pdx0 lb = pdx0 la := by
    unfold pdx0
    omega
  unfold Mem.pteSlot at h ⊢
  rw [h1, h0]
  split at h
  · rename_i hv1
    rw [if_pos hv1]
    obtain ⟨pd0, hk, h⟩ := Option.bind_eq_some_iff.1 h
    rw [hk]
    split at h
    · obtain ⟨pt, -, h⟩ := Option.bind_eq_some_iff.1 h
      cases h
    · rename_i hv0
      simp only [Option.bind_eq_bind, Option.bind_some]
      rw [if_neg hv0]
  · rename_i hv1
    rw [if_neg hv1]

/-- The loop does its work at every page of the range; it skips what has no tables. -/
theorem rangeLoop_eq (body : Mem A → Nat → Nat → Nat → Option (Bool × Mem A))
    (hs : start % pgSize = 0) (he : stop % pgSize = 0) (h : start < stop) :
    Mem.rangeLoop body d stop m start = forEach (Mem.pageStep body d) m (pagesOf start stop) := by
  apply strideLoop_eq (by decide) (fun a _ => nextPage_eq a)
    (fun a _ => ⟨(nextTableStart_spec a).1, (nextTableStart_spec a).2.1⟩) _ hs he h (Nat.lt_succ_self _)
  intro s a s' hl
  rw [getPte_false] at hl
  obtain ⟨r, hr, hl⟩ := Option.map_eq_some_iff.1 hl
  cases hl
  refine ⟨rfl, fun b h₁ h₂ => ?_⟩
  rw [getPte_false, pteSlot_none hr ((nextTableStart_spec a).2.2 b h₁ h₂)]
  rfl

/-- The work at one address is that for its slot, where there are tables for it. -/
theorem pageStep_cases (h : Paged m role) (hc : role c = .node c []) (hv : vpn la < userVpn)
    (hs : Mem.pageStep body c m la = some (ok, m')) :
    (ok = true ∧ m' = m ∧ ∀ f, role f ≠ .node c (vpath (vpn la))) ∨
      ∃ pt, role pt = .node c (vpath (vpn la)) ∧ body m la pt (vpn la % 2 ^ 9) = some (ok, m') := by
  unfold Mem.pageStep strideStep at hs
  dsimp only at hs
  rw [getPte_false, h.pteSlot_eq hc hv] at hs
  cases hw : sv39.walk m.frame c (vpath (vpn la)) with
  | none =>
    rw [hw] at hs
    cases hs
    refine .inl ⟨rfl, rfl, fun f hf => ?_⟩
    rw [(h.walk_iff hc hv).2 hf] at hw
    cases hw
  | some pt =>
    rw [hw] at hs
    exact .inr ⟨pt, (h.walk_iff hc hv).1 hw, hs⟩

theorem onRange_eq_some (h : Mem.onRange start stop r = some x) :
    start % pgSize = 0 ∧ stop % pgSize = 0 ∧ UserAccess start stop ∧ r = some x := by
  unfold Mem.onRange at h
  split at h
  · rename_i hc
    exact ⟨hc.1.1, hc.1.2, hc.2, h⟩
  · cases h

end

end UCore
