import UCore.Lib.Round
import UCore.Trap.WaitRuns

namespace UCore
set_option autoImplicit true
open Function (update)

section
variable {S : MemSys} {k k' k₁ k₂ : Kernel S} {ps xs ys : List Nat} {kids : Nat → List Nat}

theorem scheduleScan_first {es fs : List ProcEntry} {last le : ProcEntry} {next : Option Nat}
    (hp : k.listLink.Path le (es ++ .listLink n :: fs) last) (hlast : last ∉ es)
    (hes : ∀ q, .listLink q ∈ es → k.state q ≠ .runnable) (hn : k.state n = .runnable)
    (hf : es.length < fuel) : k.scheduleScan last le next fuel = some (some n) := by
  induction es generalizing le next fuel with
  | nil =>
    obtain ⟨fuel, rfl⟩ := Nat.exists_eq_add_one.2 hf
    have hnext : listNext k.listLink le = .listLink n := hp.next_eq
    simp [Kernel.scheduleScan, hnext, hn]
  | cons e es ih =>
    obtain ⟨fuel, rfl⟩ := Nat.exists_eq_add_one.2 (Nat.zero_lt_of_lt hf)
    have hnext : listNext k.listLink le = e := hp.next_eq
    rw [List.mem_cons, not_or] at hlast
    have hrec (next : Option Nat) : k.scheduleScan last e next fuel = some (some n) :=
      ih hp.2 hlast.2 (fun q hq => hes q (List.mem_cons_of_mem _ hq)) (Nat.lt_of_succ_lt_succ hf)
    cases e with
    | procList => simp [Kernel.scheduleScan, hnext, Ne.symm hlast.1, hrec]
    | listLink q =>
      have hq := hes q (List.mem_cons_self ..)
      simp [Kernel.scheduleScan, hnext, Ne.symm hlast.1, hq, hrec]

/-- The links of the walk behind `n` up to a process, when the header stands between the two halves. -/
theorem links_split {u v : List Nat} (hw : ys ++ xs = u ++ n :: v) :
    ∃ es fs, ys.map ProcEntry.listLink ++ .procList :: xs.map .listLink = es ++ .listLink n :: fs ∧
      ∀ q, .listLink q ∈ es → q ∈ u := by
  rw [List.append_eq_append_iff] at hw
  rcases hw with ⟨w, rfl, rfl⟩ | ⟨w, rfl, hw⟩
  · exact ⟨ys.map .listLink ++ .procList :: w.map .listLink, v.map .listLink, by simp, by simp⟩
  · cases w with
    | nil =>
      obtain rfl : n :: v = xs := hw
      exact ⟨u.map .listLink ++ [.procList], v.map .listLink, by simp, by simp⟩
    | cons a w =>
      cases hw
      exact ⟨u.map .listLink, w.map .listLink ++ .procList :: xs.map .listLink, by simp, by simp⟩

/-- `schedule` picks the first runnable process behind the current one, around the list. -/
theorem schedule_first (h : KernelInv False k ps kids) (hps : ps = xs ++ k.current :: ys)
    {u v : List Nat} (hw : ys ++ xs = u ++ n :: v) (hu : ∀ q ∈ u, k.state q ≠ .runnable)
    (hn : k.state n = .runnable) (hs : k.schedule = some k') : k'.current = n := by
  have hidle : k.current ≠ k.idleproc := by
    intro he
    apply h.table.idle
    rw [hps, ← he]
    simp
  have hring := h.table.list
  rw [hps, List.map_append, List.map_cons] at hring
  have hrot := hring.rotate
  obtain ⟨es, fs, hes, hmem⟩ := links_split hw
  rw [hes] at hrot
  have hlen : es.length < maxProcess + 1 := by
    have hl := congrArg List.length hes
    have hlt := h.table.length_lt
    rw [hps] at hlt
    simp only [List.length_append, List.length_cons, List.length_map] at hl hlt
    omega
  have hlast : ProcEntry.listLink k.current ∉ es := fun hm => hrot.head_notMem (List.mem_append_left _ hm)
  have hscan : { k with needResched := update k.needResched k.current false }.scheduleScan _ _ none _ =
      some (some n) :=
    scheduleScan_first hrot.path hlast (fun q hq => hu q (hmem q hq)) hn hlen
  unfold Kernel.schedule at hs
  dsimp only at hs
  rw [if_neg hidle, hscan] at hs
  simp only [Option.bind_eq_bind, Option.bind_some, hn, if_true] at hs
  cases hs
  rfl

/-- The choice of the next process, while `p` is runnable ahead of `q`. -/
theorem select_ahead (h : KernelInv False k ps kids) (hs : k.schedule = some k')
    (ha : Ahead ps k.current p q) (hpc : p ≠ k.current) (hp : p ∈ ps) (hrun : k.state p = .runnable) :
    k'.current ≠ p → k'.current ≠ q ∧ Ahead ps k'.current p q := by
  obtain ⟨xs, ys, u, n, v, hps, hw, hn, hu, hne⟩ :=
    ha.advance (P := fun a => k.state a = .runnable) h.table.nodup hp hpc hrun
  rw [schedule_first h hps hw hu hn hs]
  exact hne

/-- A call other than that keeps `p` ahead of `q`. -/
theorem call_ahead (h : KernelInv False k ps kids) (hc : k.callable c) (hr : k.call c = some (r, k'))
    (hsel : c ≠ .select) (ha : Ahead ps k.current p q) (hrun : k.state p = .runnable)
    (hq' : k'.listed q) :
    k'.current = k.current ∧ ∃ ps' kids', KernelInv False k' ps' kids' ∧ Ahead ps' k'.current p q := by
  obtain ⟨ps', kids', h', he, -⟩ := call_effect h hc hr
  rw [h'.table.listed_iff] at hq'
  cases he with
  | kept _ cur => exact ⟨cur, ps, kids', h', cur ▸ ha⟩
  | forked _ _ _ cur => exact ⟨cur, _, kids', h', cur ▸ ha.cons _⟩
  | exited _ _ _ _ _ _ _ _ _ _ cur => exact ⟨cur, ps, kids', h', cur ▸ ha⟩
  | @reaped xs z ys _ _ hps _ par st _ cur =>
    subst hps
    have hnd := h.table.nodup
    refine ⟨cur, xs ++ ys, kids', h', cur ▸ ha.erase hnd ?_ ?_ ?_⟩
    · rintro rfl
      exact h.tree.notMem_self h.states.current
        ((h.tree.family.mem_kids _ h.states.current _).2 ⟨by simp, par⟩)
    · rintro rfl
      rw [hrun] at st
      cases st
    · rintro rfl
      exact (List.nodup_middle.1 hnd).notMem hq'
  | selected hs => exact absurd hs hsel

/-- As long as `p` is not selected, it stays ahead of `q`. -/
theorem path_ahead (hr : (callMachine S).Path k r)
    (hall : ∀ s ∈ k :: r.map Prod.snd, s.listed q ∧ s.listed p ∧ s.state p = .runnable)
    (hnone : ∀ s ∈ r, s.1 = .select → s.2.current ≠ p) (hpc : p ≠ k.current)
    (hk : ∃ ps kids, KernelInv False k ps kids ∧ Ahead ps k.current p q) :
    p ≠ (Machine.endOf k r).current ∧ ∃ ps kids, KernelInv False (Machine.endOf k r) ps kids ∧
      Ahead ps (Machine.endOf k r).current p q := by
  induction r generalizing k with
  | nil => exact ⟨hpc, hk⟩
  | cons x r ih =>
    obtain ⟨c, t⟩ := x
    obtain ⟨hen, hnext, hrest⟩ := hr
    obtain ⟨⟨a, t'⟩, hcall, rfl⟩ := Option.map_eq_some_iff.1 hnext
    obtain ⟨ps, kids, h, ha⟩ := hk
    obtain ⟨hq, hp, hrun⟩ := hall k (List.mem_cons_self ..)
    have hall' : ∀ s ∈ t' :: r.map Prod.snd, s.listed q ∧ s.listed p ∧ s.state p = .runnable :=
      fun s hs => hall s (List.mem_cons_of_mem _ hs)
    have hnone' : ∀ s ∈ r, s.1 = .select → s.2.current ≠ p :=
      fun s hs => hnone s (List.mem_cons_of_mem _ hs)
    by_cases hsel : c = .select
    · subst hsel
      obtain ⟨k₁, hs, he⟩ := Option.map_eq_some_iff.1 hcall
      cases he
      have hnp := hnone (.select, t') (List.mem_cons_self ..) rfl
      obtain ⟨k₂, hs₂, h', -⟩ := schedule_spec h
      obtain rfl := Option.some.inj (hs.symm.trans hs₂)
      have hadv := select_ahead h hs ha hpc (h.table.listed_iff.1 hp) hrun hnp
      exact ih hrest hall' hnone' (Ne.symm hnp) ⟨ps, kids, h', hadv.2⟩
    · obtain ⟨hcur, hk'⟩ := call_ahead h hen hcall hsel ha hrun (hall' t' (List.mem_cons_self ..)).1
      apply ih hrest hall' hnone' _ hk'
      show p ≠ t'.current
      rwa [hcur]

/-- Between two selections of the process `q`, every process that is on `proc_list` and runnable all the
time is selected. -/
theorem no_overtaking (h : (callMachine S).Reachable k) (hc : k.callable .select)
    (hs : k.call .select = some (a, k₁)) (hq : k₁.current = q) (hpq : p ≠ q)
    (hr : (callMachine S).Path k₁ r)
    (hall : ∀ s ∈ k₁ :: r.map Prod.snd, s.listed q ∧ s.listed p ∧ s.state p = .runnable)
    (hs' : (Machine.endOf k₁ r).call .select = some (b, k₂)) (hq' : k₂.current = q) :
    ∃ s ∈ r, s.1 = .select ∧ s.2.current = p := by
  by_contra hnone
  have h₁ : (callMachine S).Reachable k₁ := .step (a := Call.select) h hc (by simp [callMachine, hs])
  obtain ⟨ps, kids, hk₁⟩ := call_inv h₁
  have hstart : Ahead ps k₁.current p q := by
    rw [hq]
    exact .start (hk₁.table.listed_iff.1 (hall k₁ (List.mem_cons_self ..)).1)
  obtain ⟨hpc, ps', kids', hk', ha⟩ := path_ahead hr hall
    (fun s hs hsel hp => hnone ⟨s, hs, hsel, hp⟩) (by rwa [hq]) ⟨ps, kids, hk₁, hstart⟩
  obtain ⟨-, hp, hrun⟩ := hall _ Machine.endOf_mem
  obtain ⟨k₃, hs₃, he⟩ := Option.map_eq_some_iff.1 hs'
  cases he
  have hadv := select_ahead hk' hs₃ ha hpc (hk'.table.listed_iff.1 hp) hrun
  exact (hadv (by rw [hq']; exact Ne.symm hpq)).1 hq'

theorem listed_of_live (h : Held False k) (hl : S.live k.mem p) (hne : p ≠ k.idleproc) : k.listed p := by
  obtain ⟨ps, kids, hk⟩ := h
  rw [hk.live] at hl
  exact hk.table.listed_iff.2 ((List.mem_cons.1 hl).resolve_left hne)

theorem no_overtaking_init : ∃ k₁ r, (callMachine bumpSys).Path k₁ r ∧ k₁.current = 1 ∧
    ∃ s ∈ r, s.1 = .select ∧ s.2.current = 2 := by
  have hrun : ((callRun [.schedule, .select, .resume, .fork 0, .schedule, .select, .resume,
      .schedule]).bind fun k => (k.call .select).bind fun k₁ =>
        ((callMachine bumpSys).trace k₁.2 [.resume, .schedule, .select, .resume, .schedule]).map
          fun r : List (Call × Kernel bumpSys) =>
          decide (k.callable .select ∧ k₁.2.current = 1 ∧
            (∀ s ∈ k₁.2 :: r.map Prod.snd, 1 ∈ s.mem.1.2 ∧ 2 ∈ s.mem.1.2 ∧ s.idleproc = 0 ∧
              s.state 2 = .runnable) ∧
            ((Machine.endOf k₁.2 r).call .select).map (fun x => x.2.current) = some 1)) = some true := by
    decide +kernel
  obtain ⟨k, hk, hrun⟩ := Option.bind_eq_some_iff.1 hrun
  obtain ⟨⟨a, k₁⟩, hs, hrun⟩ := Option.bind_eq_some_iff.1 hrun
  obtain ⟨r, hr, hrun⟩ := Option.map_eq_some_iff.1 hrun
  obtain ⟨hc, h1, hall, hend⟩ := of_decide_eq_true hrun
  obtain ⟨⟨b, k₂⟩, hs', h2⟩ := Option.map_eq_some_iff.1 hend
  have hp := Machine.trace_path hr
  have hreach := callRun_reachable hk
  refine ⟨k₁, r, hp, h1, no_overtaking hreach hc hs h1 (by decide) hp (fun s hs' => ?_) hs' h2⟩
  have hk₁ : (callMachine bumpSys).Reachable k₁ :=
    .step (a := Call.select) hreach hc (by simp [callMachine, hs])
  have hheld := call_inv (hp.mem_reachable hk₁ hs')
  obtain ⟨hl1, hl2, hid, hst⟩ := hall s hs'
  exact ⟨listed_of_live hheld hl1 (by simp [hid]), listed_of_live hheld hl2 (by simp [hid]), hst⟩

end

end UCore
