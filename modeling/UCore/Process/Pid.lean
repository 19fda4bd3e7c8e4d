import Mathlib.Order.Interval.Finset.Defs
import Mathlib.Data.Int.Interval
import Mathlib.Data.Finset.Card
import UCore.Process.ProcSpec

namespace UCore
set_option autoImplicit true

section
variable {S : MemSys} {k : Kernel S} {ps rest : List Nat}

/-- What a walk of `get_pid` over the processes `rest` leaves behind. -/
def WalkDone (k : Kernel S) (rest : List Nat) (last next : Int) : Kernel.PidWalk → Prop
  | .found l n => last ≤ l ∧ l < n ∧ n ≤ next ∧ ∀ q ∈ rest, ¬ (l ≤ k.pid q ∧ k.pid q < n)
  | .again l => ∃ v, last ≤ v ∧ v < next ∧ (∀ x, last ≤ x → x ≤ v → ∃ q ∈ rest, k.pid q = x) ∧
      l = if maxPid ≤ v + 1 then 1 else v + 1

theorem WalkDone.step_used (h : WalkDone k rest (last + 1) next r) (hp : k.pid p = last) :
    WalkDone k (p :: rest) last next r := by
  cases r with
  | found l n =>
    obtain ⟨hl, hln, hn, hfree⟩ := h
    refine ⟨by omega, hln, hn, fun q hq => ?_⟩
    cases hq with
    | head => omega
    | tail _ hq => exact hfree q hq
  | again l =>
    obtain ⟨v, hv, hvn, hused, hl⟩ := h
    refine ⟨v, by omega, hvn, fun x hx hxv => ?_, hl⟩
    by_cases hxl : x = last
    · exact ⟨p, List.mem_cons_self .., hp.trans hxl.symm⟩
    · obtain ⟨q, hq, hqx⟩ := hused x (by omega) hxv
      exact ⟨q, List.mem_cons_of_mem _ hq, hqx⟩

theorem WalkDone.step_next (h : WalkDone k rest last next' r) (hn : next' ≤ next)
    (hp : k.pid p < last ∨ next' ≤ k.pid p) : WalkDone k (p :: rest) last next r := by
  cases r with
  | found l n =>
    obtain ⟨hl, hln, hn', hfree⟩ := h
    refine ⟨hl, hln, by omega, fun q hq => ?_⟩
    cases hq with
    | head => omega
    | tail _ hq => exact hfree q hq
  | again l =>
    obtain ⟨v, hv, hvn, hused, hl⟩ := h
    refine ⟨v, hv, by omega, fun x hx hxv => ?_, hl⟩
    obtain ⟨q, hq, hqx⟩ := hused x hx hxv
    exact ⟨q, List.mem_cons_of_mem _ hq, hqx⟩

theorem pidWalk_path (hp : k.listLink.Path le (rest.map .listLink) .procList) (hlt : last < next)
    (hf : rest.length < fuel) :
    ∃ r, k.pidWalk le last next fuel = some r ∧ WalkDone k rest last next r := by
  induction rest generalizing le last next fuel with
  | nil =>
    obtain ⟨fuel, rfl⟩ := Nat.exists_eq_add_one.2 hf
    have hn : listNext k.listLink le = .procList := hp.next_eq
    refine ⟨.found last next, ?_, Int.le_refl _, hlt, Int.le_refl _, by simp⟩
    rw [Kernel.pidWalk, hn]
  | cons p rest ih =>
    obtain ⟨fuel, rfl⟩ := Nat.exists_eq_add_one.2 (Nat.zero_lt_of_lt hf)
    have hn : listNext k.listLink le = .listLink p := hp.next_eq
    have hf' : rest.length < fuel := Nat.lt_of_succ_lt_succ hf
    simp only [Kernel.pidWalk, hn]
    by_cases hpl : k.pid p = last
    · rw [if_pos hpl]
      by_cases hne : next ≤ last + 1
      · rw [if_pos hne]
        refine ⟨_, rfl, last, Int.le_refl _, hlt, fun x hx hxl => ?_, rfl⟩
        exact ⟨p, List.mem_cons_self .., by omega⟩
      · rw [if_neg hne]
        have hlt' : last + 1 < next := by omega
        obtain ⟨r, hr, hd⟩ := ih hp.2 hlt' hf'
        exact ⟨r, hr, hd.step_used hpl⟩
    · rw [if_neg hpl]
      by_cases hgap : last < k.pid p ∧ k.pid p < next
      · rw [if_pos hgap]
        obtain ⟨r, hr, hd⟩ := ih hp.2 hgap.1 hf'
        exact ⟨r, hr, hd.step_next (by omega) (.inr (Int.le_refl _))⟩
      · rw [if_neg hgap]
        obtain ⟨r, hr, hd⟩ := ih hp.2 hlt hf'
        exact ⟨r, hr, hd.step_next (Int.le_refl _) (by omega)⟩

/-- There are more pids than a list shorter than `maxPid - 1` can take. -/
theorem exists_free_pid (k : Kernel S) (hlen : (ps.length : Int) < maxPid - 1) :
    ∃ u, 1 ≤ u ∧ u < maxPid ∧ ∀ q ∈ ps, k.pid q ≠ u := by
  have hcard : (ps.map k.pid).toFinset.card < (Finset.Ico 1 maxPid).card := by
    have hle := List.toFinset_card_le (ps.map k.pid)
    rw [List.length_map] at hle
    rw [Int.card_Ico]
    omega
  obtain ⟨u, hu, hfree⟩ := Finset.exists_mem_notMem_of_card_lt_card hcard
  rw [Finset.mem_Ico] at hu
  refine ⟨u, hu.1, hu.2, fun q hq hqu => hfree ?_⟩
  exact List.mem_toFinset.2 (List.mem_map.2 ⟨q, hq, hqu⟩)

/-- Each walk that repeats has passed used pids only, so it has come nearer to a free pid `u`. -/
theorem pidRepeat_free (hp : k.listLink.Path .procList (ps.map .listLink) .procList)
    (hlen : ps.length < maxPid.toNat + 1) (hu : 1 ≤ u ∧ u < maxPid) (hfree : ∀ q ∈ ps, k.pid q ≠ u)
    (hl : 1 ≤ last ∧ last < maxPid) (hf : ((u - last) % (maxPid - 1)).toNat < fuel) :
    ∃ l n, k.pidRepeat last fuel = some (l, n) ∧ 1 ≤ l ∧ l < n ∧ n ≤ maxPid ∧
      ∀ q ∈ ps, ¬ (l ≤ k.pid q ∧ k.pid q < n) := by
  induction fuel generalizing last with
  | zero => exact absurd hf (Nat.not_lt_zero _)
  | succ fuel ih =>
    obtain ⟨r, hr, hd⟩ := pidWalk_path hp hl.2 hlen
    simp only [Kernel.pidRepeat, hr]
    cases r with
    | found l n =>
      obtain ⟨hll, hln, hn, hgap⟩ := hd
      exact ⟨l, n, rfl, Int.le_trans hl.1 hll, hln, hn, hgap⟩
    | again l =>
      obtain ⟨v, hv, hvn, hused, rfl⟩ := hd
      have huv : u < last ∨ v < u := by
        by_contra hc
        obtain ⟨q, hq, hqu⟩ := hused u (by omega) (by omega)
        exact hfree q hq hqu
      clear hr hused hlen hp
      unfold maxPid at *
      apply ih
      · split <;> omega
      · split <;> omega

/-- `get_pid` returns a pid that no process of `proc_list` has, and the pids up to `next_safe` are
unused. -/
theorem getPid_spec (hr : k.listLink.Ring .procList (ps.map .listLink))
    (hlen : (ps.length : Int) < maxPid - 1) (hlast : 1 ≤ k.lastPid ∧ k.lastPid ≤ maxPid)
    (hnext : k.nextSafe ≤ maxPid)
    (hgap : ∀ p ∈ ps, ¬ (k.lastPid < k.pid p ∧ k.pid p < k.nextSafe)) :
    ∃ l n, k.getPid = some (l, { k with lastPid := l, nextSafe := n }) ∧ 1 ≤ l ∧ l < n ∧ n ≤ maxPid ∧
      ∀ q ∈ ps, ¬ (l ≤ k.pid q ∧ k.pid q < n) := by
  by_cases hwalk : maxPid ≤ k.lastPid + 1 ∨ k.nextSafe ≤ k.lastPid + 1
  · obtain ⟨u, hu1, hu, hfree⟩ := exists_free_pid k hlen
    have hstart : 1 ≤ (if maxPid ≤ k.lastPid + 1 then 1 else k.lastPid + 1) ∧
        (if maxPid ≤ k.lastPid + 1 then 1 else k.lastPid + 1) < maxPid := by
      unfold maxPid at *
      split <;> omega
    have hfuel (last : Int) : ((u - last) % (maxPid - 1)).toNat < maxPid.toNat + 1 := by
      unfold maxPid
      omega
    obtain ⟨l, n, hrep, hdone⟩ := pidRepeat_free hr.path (by unfold maxPid at *; omega) ⟨hu1, hu⟩
      hfree hstart (hfuel _)
    refine ⟨l, n, ?_, hdone⟩
    simp [Kernel.getPid, if_pos hwalk, hrep]
  · refine ⟨k.lastPid + 1, k.nextSafe, ?_, by omega, by omega, hnext, fun q hq => ?_⟩
    · simp only [Kernel.getPid, if_neg hwalk]
    · have := hgap q hq
      omega

theorem ProcTable.getPid (h : ProcTable k ps) :
    ∃ l n, k.getPid = some (l, { k with lastPid := l, nextSafe := n }) ∧
      ProcTable { k with lastPid := l, nextSafe := n } ps ∧ 1 ≤ l ∧ l < maxPid ∧ ∀ q ∈ ps, k.pid q ≠ l := by
  have hlen : (ps.length : Int) < maxPid - 1 := by
    have := h.length_lt
    unfold maxProcess at this
    unfold maxPid
    omega
  obtain ⟨l, n, hget, hl, hln, hn, hgap⟩ := getPid_spec h.list hlen h.last h.gap.1 h.gap.2
  have hlm : l < maxPid := Int.lt_of_lt_of_le hln hn
  refine ⟨l, n, hget, ?_, hl, hlm, fun q hq hql => hgap q hq (by omega)⟩
  exact { h with
    last := ⟨hl, Int.le_of_lt hlm⟩
    gap := ⟨hn, fun q hq hc => hgap q hq ⟨Int.le_of_lt hc.1, hc.2⟩⟩ }

end

end UCore
