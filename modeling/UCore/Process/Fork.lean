import UCore.Process.Pid
import UCore.Process.Links

namespace UCore
set_option autoImplicit true
open Function (update)

section
variable {S : MemSys} {k k₁ k₂ k' : Kernel S} {ps xs : List Nat} {kids : Nat → List Nat} {spared : Prop}

/-- The kernel `k₁` is `k` in the middle of `do_fork`, with a new `proc_struct` at `p`. -/
structure Forking (k k₁ : Kernel S) (xs : List Nat) (p : Nat) : Prop where
  same : SameProcs k k₁ xs
  fresh : p ∉ xs
  live : ∀ q, S.live k₁.mem q ↔ S.live k.mem q ∨ q = p
  state : k₁.state p = .uninit
  waitState : k₁.waitState p = 0
  parent : k₁.parent p = some k.current
  cptr : k₁.cptr p = none

/-- The fields that the process table does not depend on. -/
theorem SameProcs.other (k : Kernel S) (m : S.σ) (ks cr : Nat → Nat) (mm : Nat → Option Nat)
    (nr : Nat → Bool) (ru : Nat → Nat) (ec : Nat → Int) (xs : List Nat) :
    SameProcs k { k with
      mem := m, kstack := ks, cr3 := cr, mm := mm, needResched := nr, runs := ru, exitCode := ec } xs := by
  constructor <;> intros <;> rfl

theorem allocProc_none (h : k.allocProc = (none, k₁)) :
    SameProcs k k₁ xs ∧ ∀ q, S.live k₁.mem q ↔ S.live k.mem q := by
  unfold Kernel.allocProc at h
  split at h
  · rename_i m hm
    cases h
    exact ⟨.other .., fun q => by simpa [Kernel.setMem] using S.kmallocProc_live hm⟩
  · cases h

theorem allocProc_some (h : k.allocProc = (some p, k₁)) (hl : ∀ q, S.live k.mem q ↔ q ∈ xs) :
    Forking k { k₁ with parent := update k₁.parent p (some k₁.current) } xs p := by
  unfold Kernel.allocProc at h
  split at h
  · cases h
  · rename_i q m hm
    cases h
    have hp : p ∉ xs := fun hx => S.kmallocProc_fresh hm ((hl p).2 hx)
    have hother {α : Type} (f : Nat → α) (v : α) (q : Nat) (hq : q ∈ xs) : update f p v q = f q :=
      Function.update_of_ne (ne_of_mem_of_not_mem hq hp) ..
    constructor
    · constructor <;> first | exact hother _ _ | rfl | skip
      · intro q hq
        exact (hother _ _ q hq).trans (hother _ _ q hq)
      · exact fun _ _ => rfl
    · exact hp
    · intro q
      simpa [eq_comm] using S.kmallocProc_live hm
    · exact Function.update_self ..
    · exact Function.update_self ..
    · exact Function.update_self ..
    · exact Function.update_self ..

theorem Forking.other (h : Forking k k₁ xs p) (m : S.σ) (ks cr : Nat → Nat) (mm : Nat → Option Nat)
    (hm : S.live m = S.live k₁.mem) :
    Forking k { k₁ with mem := m, kstack := ks, cr3 := cr, mm := mm } xs p where
  same := h.same.trans (.other ..)
  fresh := h.fresh
  live q := by
    rw [← h.live]
    show S.live m q ↔ _
    rw [hm]
  state := h.state
  waitState := h.waitState
  parent := h.parent
  cptr := h.cptr

theorem Forking.setupKstack (h : Forking k k₁ xs p) (hs : k₁.setupKstack q = (b, k₂)) :
    Forking k k₂ xs p := by
  unfold Kernel.setupKstack at hs
  split at hs
  · rename_i m hm
    cases hs
    exact h.other _ _ _ _ (S.allocKstack_live hm)
  · rename_i a m hm
    cases hs
    exact h.other _ _ _ _ (S.allocKstack_live hm)

theorem Forking.putKstack (h : Forking k k₁ xs p) (hs : k₁.putKstack q = some k₂) :
    Forking k k₂ xs p := by
  obtain ⟨m, hm, rfl⟩ := Option.map_eq_some_iff.1 hs
  exact h.other _ _ _ _ (S.freeKstack_live hm)

theorem Forking.copyMm (h : Forking k k₁ xs p) (hs : k₁.copyMm fl q = some (e, k₂)) :
    Forking k k₂ xs p := by
  unfold Kernel.copyMm at hs
  split at hs
  · cases hs
  · rename_i ret m hm
    cases hs
    exact h.other _ _ _ _ (S.copyMm_live hm)
  · rename_i ret mm cr m hm
    cases hs
    exact h.other _ _ _ _ (S.copyMm_live hm)

theorem Forking.abort (h : Forking k k₁ xs p) (hl : ∀ q, S.live k.mem q ↔ q ∈ xs) :
    SameProcs k (k₁.kfreeProc p) xs ∧ ∀ q, S.live (k₁.kfreeProc p).mem q ↔ S.live k.mem q := by
  refine ⟨h.same.trans (.other ..), fun q => ?_⟩
  have hp : ¬ S.live k.mem p := fun hp => h.fresh ((hl p).1 hp)
  rw [Kernel.kfreeProc, Kernel.setMem, S.kfreeProc_live, h.live]
  constructor
  · rintro ⟨hq | hq, hqp⟩
    · exact hq
    · exact absurd hq hqp
  · intro hq
    refine ⟨.inl hq, ?_⟩
    rintro rfl
    exact hp hq

/-- What a successful `do_fork` has done: the process `p` is on `proc_list`, as a child of the caller. -/
structure Forked (spared : Prop) (k k' : Kernel S) (ps : List Nat) (kids : Nat → List Nat)
    (entry : Via) (p : Nat) : Prop where
  fresh : p ∉ k.idleproc :: ps
  inv : ProcInv spared k' (p :: ps) (update (update kids p []) k.current (p :: kids k.current))
  state : ∀ q ∈ k.idleproc :: ps, k'.state q = k.state q
  parent : ∀ q ∈ k.idleproc :: ps, k'.parent q = k.parent q
  current : k'.current = k.current
  idleproc : k'.idleproc = k.idleproc
  initproc : k'.initproc = k.initproc
  scheduling : k'.scheduling = k.scheduling
  started : k'.state p = .runnable
  entered : k'.ctl p = .forkret entry

theorem ProcStates.link (h : ProcStates spared k ps) (hp : p ∉ k.idleproc :: ps)
    (estate : ∀ x ≠ p, k'.state x = k.state x) (ewait : ∀ x ≠ p, k'.waitState x = k.waitState x)
    (ectl : k'.ctl = k.ctl) (eflags : k'.flags = k.flags) (eparent : k'.parent = k.parent)
    (eidle : k'.idleproc = k.idleproc) (ecur : k'.current = k.current)
    (esched : k'.scheduling = k.scheduling) (hst : k'.state p = .runnable) (hw : k'.waitState p = 0) :
    ProcStates spared k' (p :: ps) := by
  have hne (x : Nat) (hx : x ∈ k.idleproc :: ps) : x ≠ p := ne_of_mem_of_not_mem hx hp
  have hps (x : Nat) (hx : x ∈ ps) : x ≠ p := hne x (List.mem_cons_of_mem _ hx)
  constructor
  · intro x hx hxs
    cases hx with
    | head => simp [hst] at hxs
    | tail _ hx =>
      rw [estate x (hps x hx)] at hxs
      rw [ewait x (hps x hx), ectl]
      exact h.asleep x hx hxs
  · intro x hx hxs
    by_cases hxp : x = p
    · rw [hxp, hw]
    · rw [eidle] at hx
      rw [estate x hxp] at hxs
      rw [ewait x hxp]
      apply h.awake x _ hxs
      simpa [hxp] using hx
  · intro hsp x hx hxs
    cases hx with
    | head => simp [hst] at hxs
    | tail _ hx =>
      rw [estate x (hps x hx)] at hxs
      rw [eflags]
      exact h.spare hsp x hx hxs
  · intro x hx
    cases hx with
    | head => simp [hst]
    | tail _ hx =>
      rw [estate x (hps x hx)]
      exact h.ready x hx
  · rw [eidle, ectl, eparent, estate _ (hne _ (List.mem_cons_self ..))]
    exact h.idle
  · rw [ecur, eidle]
    have := h.current
    simp only [List.mem_cons] at this ⊢
    exact this.imp_right .inr
  · rw [esched, ecur, estate _ (hne _ h.current)]
    exact h.running

theorem ProcWaits.link (h : ProcWaits k ps kids) (hf : Family k ps kids r) (hp : p ∉ k.idleproc :: ps)
    (hq : k.state q ≠ .sleeping) (hqp : q ≠ p) (estate : ∀ x ≠ p, k'.state x = k.state x)
    (epid : ∀ x ≠ p, k'.pid x = k.pid x) (ectl : k'.ctl = k.ctl) (hst : k'.state p = .runnable) :
    ProcWaits k' (p :: ps) (update (update kids p []) q (p :: kids q)) := by
  constructor
  intro x hx hxs via pid store hctl
  cases hx with
  | head => simp [hst] at hxs
  | tail _ hx =>
    have hxm : x ∈ k.idleproc :: ps := List.mem_cons_of_mem _ hx
    have hxp : x ≠ p := ne_of_mem_of_not_mem hxm hp
    have hkid (c : Nat) (hc : c ∈ kids x) : c ≠ p := ne_of_mem_of_not_mem (hf.kid_mem hxm hc) hp
    rw [estate x hxp] at hxs
    rw [ectl] at hctl
    have hxq : x ≠ q := by
      rintro rfl
      exact hq hxs
    rw [Function.update_of_ne hxq, Function.update_of_ne hxp]
    obtain ⟨⟨c, hc, hcp⟩, hz⟩ := h.child x hx hxs via pid store hctl
    refine ⟨⟨c, hc, by rwa [epid c (hkid c hc)]⟩, fun d hd => ?_⟩
    rw [epid d (hkid d hd), estate d (hkid d hd)]
    exact hz d hd

/-- The part of `do_fork` that cannot fail any more. -/
theorem Forking.finish (h : ProcInv spared k ps kids) (hf : Forking k k₁ (k.idleproc :: ps) p)
    (hrun : k.scheduling = false) (hn : k.nrProcess < maxProcess)
    (hr : (do
      let (pid, k) ← (k₁.setCtl p (.forkret entry)).getPid
      let k := { k with pid := update k.pid p pid }
      let k := Kernel.hashProc k p
      let k ← Kernel.setLinks k p
      let k ← Kernel.wakeupProc k p
      some (k.pid p, k)) = some (r, k')) :
    1 ≤ r ∧ k'.pid p = r ∧ Forked spared k k' ps kids entry p := by
  have hsame : SameProcs k (k₁.setCtl p (.forkret entry)) (k.idleproc :: ps) :=
    { hf.same with ctl := fun q hq =>
        (Function.update_of_ne (ne_of_mem_of_not_mem hq hf.fresh) ..).trans (hf.same.ctl q hq) }
  have hidle : k₁.idleproc = k.idleproc := hf.same.idleproc
  have hcur : k₁.current = k.current := hf.same.current
  have hfresh : p ∉ k₁.idleproc :: ps := by
    rw [hidle]
    exact hf.fresh
  have ht := h.table.congr hsame
  have htree := h.tree.congr hsame
  have hst := h.states.congr hsame
  have hw := h.waits.congr h.tree hsame
  have hcm : k.current ∈ k₁.idleproc :: ps := by
    rw [hidle]
    exact h.states.current
  have hcs : k₁.state k.current = .runnable := by
    rw [← hcur]
    exact hst.running (hsame.scheduling.trans hrun)
  obtain ⟨l, n, hget, ht', hl, hlm, hfree⟩ := ht.getPid
  rw [hget] at hr
  have hpar : k₁.parent p = some k.current := hf.parent
  simp only [Option.bind_eq_bind, Option.bind_some, Kernel.hashProc] at hr
  rw [setLinks_eq (q := k.current)] at hr
  swap
  · exact hpar
  have hun : k₁.state p = .uninit := hf.state
  simp [Kernel.wakeupProc, Kernel.setCtl, hun] at hr
  obtain ⟨rfl, rfl⟩ := hr
  refine ⟨hl, Function.update_self .., hf.fresh, ?_, ?_, hf.same.parent, hcur, hidle, hf.same.initproc,
    hf.same.scheduling, Function.update_self .., Function.update_self ..⟩
  · constructor
    · have hnk : k₁.nrProcess < maxProcess := by
        rw [hf.same.nrProcess]
        exact hn
      exact ht'.link hfresh hlm hfree hnk rfl (by simp [Kernel.setCtl]) rfl rfl rfl rfl rfl
    · refine htree.link ht.idle hfresh hf.cptr hpar hcm ?_ rfl rfl rfl rfl ?_ ?_ rfl
      · simp [Kernel.setCtl, hcs]
      · exact fun x hx => Function.update_of_ne hx ..
      · simp
    · refine hst.link hfresh ?_ ?_ rfl rfl rfl rfl rfl rfl (Function.update_self ..)
        (Function.update_self ..)
      · exact fun x hx => Function.update_of_ne hx ..
      · exact fun x hx => Function.update_of_ne hx ..
    · refine hw.link htree.family hfresh ?_ (ne_of_mem_of_not_mem hcm hfresh) ?_ ?_ rfl
        (Function.update_self ..)
      · simp [Kernel.setCtl, hcs]
      · exact fun x hx => Function.update_of_ne hx ..
      · exact fun x hx => Function.update_of_ne hx ..
    · intro q
      refine (hf.live q).trans ?_
      show _ ↔ q ∈ k₁.idleproc :: p :: ps
      rw [h.live, hidle]
      simp only [List.mem_cons]
      tauto
  · intro q hq
    exact (Function.update_of_ne (ne_of_mem_of_not_mem hq hf.fresh) ..).trans (hf.same.state q hq)

/-- A call of `do_fork` fails and changes nothing in the process table, or adds a process. -/
theorem doFork_spec (h : ProcInv spared k ps kids) (hrun : k.scheduling = false)
    (hf : k.doFork fl entry = some (r, k')) :
    (r < 0 ∧ SameProcs k k' (k.idleproc :: ps) ∧ ∀ q, S.live k'.mem q ↔ S.live k.mem q) ∨
      ∃ p, 1 ≤ r ∧ k'.pid p = r ∧ Forked spared k k' ps kids entry p := by
  unfold Kernel.doFork Kernel.doForkWith at hf
  split at hf
  · cases hf
    exact .inl ⟨by decide, .refl .., fun q => Iff.rfl⟩
  · rename_i hn
    split at hf
    · rename_i k₁ ha
      cases hf
      exact .inl ⟨by decide, allocProc_none ha⟩
    · rename_i p k₁ ha
      have hfk := allocProc_some ha h.live
      dsimp only at hf
      split at hf
      · rename_i k₂ hks
        have hfk₂ := hfk.setupKstack hks
        obtain ⟨k₃, hpk, hf⟩ := Option.bind_eq_some_iff.1 hf
        cases hf
        exact .inl ⟨by decide, (hfk₂.putKstack hpk).abort h.live⟩
      · rename_i k₂ hks
        obtain ⟨⟨e, k₃⟩, hcm, hf⟩ := Option.bind_eq_some_iff.1 hf
        have hfk₃ := (hfk.setupKstack hks).copyMm hcm
        dsimp only at hf
        split at hf
        · cases hf
          exact .inl ⟨by decide, hfk₃.abort h.live⟩
        · exact .inr ⟨p, hfk₃.finish h hrun (Int.not_le.1 hn) hf⟩

end

end UCore
