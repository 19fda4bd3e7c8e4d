import UCore.Process.SpaceUse
import UCore.Process.Wait

namespace UCore
set_option autoImplicit true
open Function (update)

/-- `do_exit` makes a zombie of the current process when it has left its address space. -/
theorem doExit_same {S : MemSys} {k k' : Kernel S} (h : k.doExit e = some k') : ∃ k₁, k.exitMm = some k₁ ∧
    SameUse { k₁ with state := update k₁.state k₁.current .zombie } k' := by
  unfold Kernel.doExit Kernel.doExitWith at h
  split at h
  · cases h
  · split at h
    · cases h
    · obtain ⟨k₁, hm, h⟩ := Option.bind_eq_some_iff.1 h
      obtain ⟨p, -, h⟩ := Option.bind_eq_some_iff.1 h
      obtain ⟨k₂, hw, h⟩ := Option.bind_eq_some_iff.1 h
      obtain ⟨k₃, hr, h⟩ := Option.bind_eq_some_iff.1 h
      cases h
      refine ⟨k₁, hm, ?_⟩
      have hz : SameUse { k₁ with state := update k₁.state k₁.current .zombie }
          { k₁ with
            state := update k₁.state k₁.current .zombie, exitCode := update k₁.exitCode k₁.current e } :=
        ⟨rfl, rfl, rfl, fun _ => Iff.rfl, rfl⟩
      have hs : SameUse k₃ (k₃.enterSchedule .exiting) := ⟨rfl, rfl, rfl, fun _ => Iff.rfl, rfl⟩
      exact ((hz.trans (.wake _ hw)).trans (.reparent hr)).trans hs

section
variable {A : PhysSys} {bs : Nat} {k k' : Kernel (pagingSys A bs)} {m : KMem A}

/-- `do_fork`, for a process that exists. -/
theorem SpaceInv.doFork (h : SpaceInv k False) (hcur : k.current ∈ k.procs) (hf : k.doFork fl entry = some (e, k')) :
    SpaceInv k' False ∧ Tears k k' [] := by
  unfold Kernel.doFork Kernel.doForkWith at hf
  split at hf
  · cases hf
    exact ⟨h, .refl k⟩
  · split at hf
    · rename_i k₁ ha
      cases hf
      unfold Kernel.allocProc at ha
      split at ha
      · rename_i m hm
        cases ha
        have hc : Calm k (k.setMem m) := .setMem (SameBlocks.kmallocProc hm)
        exact ⟨hc.inv h, hc.tears⟩
      · cases ha
    · rename_i p k₁ ha
      obtain ⟨h₁, hfresh, hprocs, hno, hst, hcur₁, ht₁⟩ := h.allocProc ha
      have hp : p ∈ k₁.procs := by
        rw [hprocs]
        exact Finset.mem_insert_self ..
      have hcur₁ : k₁.current ∈ k₁.procs := by
        rw [hcur₁, hprocs]
        exact Finset.mem_insert_of_mem hcur
      have hz : k₁.state p ≠ .zombie := by
        rw [hst]
        nofun
      dsimp only at hf
      have hpar : Calm k₁ { k₁ with parent := update k₁.parent p (some k₁.current) } :=
        ⟨.refl _, rfl, rfl, fun _ => Iff.rfl, rfl⟩
      split at hf
      · rename_i k₂ hks
        obtain ⟨k₃, hpk, hf⟩ := Option.bind_eq_some_iff.1 hf
        cases hf
        have hc := (hpar.trans (.setupKstack hks)).trans (.putKstack hpk)
        obtain ⟨h', -, ht⟩ := (hc.inv h₁).kfreeProc (p := p) (by rw [hc.mm, hno])
        exact ⟨h', (ht₁.trans hc.tears).trans ht⟩
      · rename_i k₂ hks
        have hc := hpar.trans (.setupKstack hks)
        obtain ⟨⟨r, k₃⟩, hcm, hf⟩ := Option.bind_eq_some_iff.1 hf
        have hprocs₂ : k₂.procs = k₁.procs := hc.blocks.procs
        obtain ⟨h₃, hprocs₃, hno₃, ht₃⟩ := (hc.inv h₁).copyMm (hprocs₂ ▸ hp) (by rw [hc.mm, hno])
          (fun hz' => hz ((hc.zombie p).1 hz')) (by rw [hc.current, hprocs₂]; exact hcur₁) hcm
        have ht₃ := (ht₁.trans hc.tears).trans ht₃
        dsimp only at hf
        split at hf
        · rename_i hr
          cases hf
          obtain ⟨h', -, ht⟩ := h₃.kfreeProc (hno₃ hr)
          exact ⟨h', ht₃.trans ht⟩
        · obtain ⟨⟨pid, k₄⟩, hget, hf⟩ := Option.bind_eq_some_iff.1 hf
          obtain ⟨k₅, hset, hf⟩ := Option.bind_eq_some_iff.1 hf
          obtain ⟨k₆, hwake, hf⟩ := Option.bind_eq_some_iff.1 hf
          cases hf
          have hctl : SameUse k₃ (k₃.setCtl p (.forkret entry)) := ⟨rfl, rfl, rfl, fun _ => Iff.rfl, rfl⟩
          have hpid : SameUse k₄ (({ k₄ with pid := update k₄.pid p pid } : Kernel _).hashProc p) :=
            ⟨rfl, rfl, rfl, fun _ => Iff.rfl, rfl⟩
          have hall := Calm.of_same ((((hctl.trans (.getPid hget)).trans hpid).trans (.setLinks hset)).trans
            (.wakeupProc hwake))
          exact ⟨hall.inv h₃, ht₃.trans hall.tears⟩

/-- The last user of its address space who leaves it. -/
def Kernel.lastUser (k : Kernel (pagingSys A bs)) (x : Nat) : Prop :=
  k.mm k.current = some x ∧ ∀ p ∈ k.procs, p ≠ k.current → k.mm p ≠ some x

theorem SpaceInv.zombie (h : SpaceInv k True) (hno : k.mm k.current = none) :
    SpaceInv { k with state := update k.state k.current .zombie } False where
  owners := h.owners
  gone p hp hz := by
    by_cases hpc : p = k.current
    · rw [hpc]
      exact hno
    · exact h.gone p hp ((Function.update_of_ne hpc ..).symm.trans hz)
  cr3 p hp hz _ := by
    by_cases hpc : p = k.current
    · rw [hpc] at hz
      exact absurd (Function.update_self ..) hz
    · exact h.cr3 p hp (fun hc => hz ((Function.update_of_ne hpc ..).trans hc)) fun _ => hpc

/-- `do_exit`. -/
theorem SpaceInv.doExit (h : SpaceInv k False) (hcur : k.current ∈ k.procs) (hx : k.doExit e = some k') :
    SpaceInv k' False ∧ ∃ t, Tears k k' t ∧ t.Nodup ∧ ∀ x, x ∈ t ↔ k.lastUser x := by
  obtain ⟨k₁, hm, hs⟩ := doExit_same hx
  obtain ⟨h₁, -, hno, -, hcur₁, t, ht, hnd, hiff⟩ := h.exitMm hcur hm
  have hc := Calm.of_same hs
  have hz : Tears k₁ { k₁ with state := update k₁.state k₁.current .zombie } [] := ⟨rfl, fun _ hx _ => ⟨hx, rfl⟩⟩
  exact ⟨hc.inv (h₁.zombie (by rw [hcur₁, hno])), t, (ht.trans hz).trans hc.tears, hnd, hiff⟩

/-- `do_exit` of a process that has left its address space before. -/
theorem SpaceInv.doExit_left (h : SpaceInv k True) (hno : k.mm k.current = none) (hx : k.doExit e = some k') :
    SpaceInv k' False ∧ Tears k k' [] := by
  obtain ⟨k₁, hm, hs⟩ := doExit_same hx
  obtain rfl : k = k₁ := by
    unfold Kernel.exitMm at hm
    rw [hno] at hm
    exact Option.some.inj hm
  have hc := Calm.of_same hs
  have hz : Tears k { k with state := update k.state k.current .zombie } [] := ⟨rfl, fun _ hx _ => ⟨hx, rfl⟩⟩
  exact ⟨hc.inv (h.zombie hno), hz.trans hc.tears⟩

/-- `do_execve`: the last user of the old address space takes it down. -/
theorem SpaceInv.doExecve (h : SpaceInv k False) (hcur : k.current ∈ k.procs) (hz : k.state k.current ≠ .zombie)
    (hx : k.doExecve name len binary size = some (r, k')) : SpaceInv k' False ∧ ∃ t, Tears k k' t ∧ t.Nodup ∧
      ∀ x, x ∈ t ↔ (KMem.userMemCheck k.kmem (k.mm k.current) name len false).1 = true ∧ k.lastUser x := by
  unfold Kernel.doExecve Kernel.doExecveWith at hx
  split at hx
  · rename_i m hm
    cases hx
    have hc : Calm k (k.setMem m) := .setMem (SameBlocks.userMemCheck hm)
    refine ⟨hc.inv h, [], hc.tears, .nil, fun x => iff_of_false List.not_mem_nil fun hx => ?_⟩
    have hb : (KMem.userMemCheck k.kmem (k.mm k.current) name len false).1 = false := congrArg Prod.fst hm
    rw [hb] at hx
    cases hx.1
  · rename_i m hm
    have hb : (KMem.userMemCheck k.kmem (k.mm k.current) name len false).1 = true := congrArg Prod.fst hm
    obtain ⟨m₁, hread, hx⟩ := Option.bind_eq_some_iff.1 hx
    obtain ⟨k₂, he, hx⟩ := Option.bind_eq_some_iff.1 hx
    obtain ⟨⟨ret, new, m₂⟩, hl, hx⟩ := Option.bind_eq_some_iff.1 hx
    have hc : Calm k (k.setMem m₁) := (Calm.setMem (SameBlocks.userMemCheck hm)).trans (.setMem (SameBlocks.readUser hread))
    have hcur₁ : (k.setMem m₁).current ∈ (k.setMem m₁).procs := by
      rw [show (k.setMem m₁).procs = k.procs from hc.blocks.procs]
      exact hcur
    obtain ⟨h₂, hprocs, hno, hst, hcur₂, t, ht, hnd, hiff⟩ := (hc.inv h).exitMm hcur₁ he
    have hprocs₁ : (k.setMem m₁).procs = k.procs := hc.blocks.procs
    have hlast (x : Nat) : x ∈ t ↔ (KMem.userMemCheck k.kmem (k.mm k.current) name len false).1 = true ∧ k.lastUser x := by
      rw [hiff, hprocs₁, and_iff_right hb]
      rfl
    have ht := hc.tears.trans ht
    rw [List.append_nil] at ht
    obtain ⟨⟨⟨ret', new'⟩, m'⟩, hl', he⟩ := Option.map_eq_some_iff.1 hl
    cases he
    obtain ⟨ld, hload, hnew, hprocs₂, htorn₂⟩ := loadIcode_eq hl'
    have hcr := loadIcode_created k₂.kmem.ok hload
    rw [← hnew] at hcr
    have hno : k₂.mm k₂.current = none := by rw [hcur₂]; exact hno
    dsimp only at hx
    split at hx
    · rename_i hne
      obtain ⟨k₃, hexit, hx⟩ := Option.bind_eq_some_iff.1 hx
      cases hx
      obtain ⟨-, hsp⟩ := hcr.fail hne
      have h₃ : SpaceInv (k₂.setMem m') True :=
        h₂.congr hprocs₂ hsp hcr.old rfl rfl (fun _ => Iff.rfl) fun _ => rfl
      have ht₃ : Tears k₂ (k₂.setMem m') [] := by
        refine ⟨htorn₂, fun x hx _ => ⟨?_, MmStruct.map_eq (hcr.old x hx)⟩⟩
        rwa [show (k₂.setMem m').spaces = k₂.spaces from hsp]
      obtain ⟨h', ht'⟩ := h₃.doExit_left hno hexit
      exact ⟨h', t, (ht.trans ht₃).trans ht', hnd, hlast⟩
    · rename_i hz'
      obtain rfl := not_not.1 hz'
      obtain ⟨x, d, rfl, -⟩ := hcr.done rfl
      cases hx
      have hz₂ : k₂.state k₂.current ≠ .zombie := by
        rw [hst, hcur₂]
        exact hz
      have hcur₃ : k₂.current ∈ k₂.procs := by
        rw [hprocs, hcur₂]
        exact hcur₁
      refine And.imp_right (fun (ht' : Tears k₂ _ []) => ⟨t, ht.trans ht', hnd, hlast⟩) ?_
      exact h₂.take hcur₃ hno hz₂ (fun _ => rfl) hcr hprocs₂ htorn₂ rfl rfl rfl rfl

/-- The end of `do_wait`, for a zombie. -/
theorem SpaceInv.reap (h : SpaceInv k False) (hp : p ∈ k.procs) (hz : k.state p = .zombie)
    (hr : k.reap p store = some k') : SpaceInv k' False ∧ Tears k k' [] := by
  unfold Kernel.reap at hr
  split at hr
  · cases hr
  · obtain ⟨k₁, hs, hr⟩ := Option.bind_eq_some_iff.1 hr
    obtain ⟨k₂, hl, hr⟩ := Option.bind_eq_some_iff.1 hr
    obtain ⟨k₃, hk, hr⟩ := Option.bind_eq_some_iff.1 hr
    cases hr
    have hs : Calm k k₁ := by
      split at hs
      · cases hs
        exact .refl k
      · obtain ⟨m, hm, rfl⟩ := Option.map_eq_some_iff.1 hs
        exact .setMem (SameBlocks.storeInt hm)
    have hu : SameUse k₁ (k₁.unhashProc p) := ⟨rfl, rfl, rfl, fun _ => Iff.rfl, rfl⟩
    have hc := (hs.trans (.of_same (hu.trans (.removeLinks hl)))).trans (.putKstack hk)
    obtain ⟨h', -, ht⟩ := (hc.inv h).kfreeProc (p := p) (by rw [hc.mm, h.gone p hp hz])
    exact ⟨h', hc.tears.trans ht⟩

/-- `do_wait` from the scan on. -/
theorem SpaceInv.waitRepeat (h : SpaceInv k False) (hcur : k.state k.current ≠ .zombie)
    (hfound : ∀ p, k.waitScan pid = some (.found p) → p ∈ k.procs ∧ k.state p = .zombie)
    (hr : k.waitRepeat via pid store = some (r, k')) : SpaceInv k' False ∧ Tears k k' [] := by
  obtain ⟨scan, hscan, hr⟩ := Option.bind_eq_some_iff.1 hr
  cases scan with
  | noChild =>
    cases hr
    exact ⟨h, .refl k⟩
  | sleep =>
    cases hr
    have hc : Calm k ({ k with
        state := update k.state k.current .sleeping
        waitState := update k.waitState k.current wtChild }.enterSchedule (.waiting via pid store)) := by
      refine ⟨.refl _, rfl, rfl, fun p => ?_, rfl⟩
      show update k.state k.current .sleeping p = .zombie ↔ _
      by_cases hp : p = k.current
      · rw [hp, Function.update_self]
        exact iff_of_false nofun hcur
      · rw [Function.update_of_ne hp]
    exact ⟨hc.inv h, hc.tears⟩
  | found p =>
    obtain ⟨k₁, hreap, hr⟩ := Option.bind_eq_some_iff.1 hr
    cases hr
    obtain ⟨hp, hz⟩ := hfound p hscan
    exact h.reap hp hz hreap

end

end UCore
