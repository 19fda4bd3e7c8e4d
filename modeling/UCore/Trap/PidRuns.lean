import UCore.Trap.KernelRuns

namespace UCore
set_option autoImplicit true
open Function (update)

/-- The kernel, the processes of `proc_list` in its order, and the pid that `get_pid` returned last, until a process
takes it. -/
structure PidState (S : MemSys) where
  kernel : Kernel S
  procs : List Nat
  pending : Option Int

/-- A call of `get_pid`, and the changes of `proc_list` around it, each with the kernel it leads to. -/
inductive PidStep (S : MemSys) where
  | getPid
  /-- The process `p` takes the pid, and its place is behind the first `n` processes. -/
  | enter (p n : Nat) (kernel : Kernel S)
  | leave (p : Nat) (kernel : Kernel S)

/-- The kernels agree on the static variables of `get_pid` and on the pids of the processes `ps`. -/
structure SamePids {S : MemSys} (k k' : Kernel S) (ps : List Nat) : Prop where
  last : k'.lastPid = k.lastPid
  next : k'.nextSafe = k.nextSafe
  pid : ∀ p ∈ ps, k'.pid p = k.pid p

section
variable {S : MemSys}

namespace PidState

/-- The entry of `proc_list` behind which a process enters. -/
def entry (s : PidState S) (n : Nat) : ProcEntry := ((s.procs.take n).map .listLink).getLastD .procList

def allowed (s : PidState S) : PidStep S → Prop
  | .getPid => (s.procs.length : Int) < maxPid - 1
  | .enter p n k => p ∉ s.procs ∧ s.pending = some (k.pid p) ∧ SamePids s.kernel k s.procs ∧
      k.listLink = listAdd s.kernel.listLink (s.entry n) (.listLink p)
  | .leave p k => p ∈ s.procs ∧ SamePids s.kernel k s.procs ∧
      k.listLink = listDel s.kernel.listLink (.listLink p)

def call (s : PidState S) : PidStep S → Option (PidState S)
  | .getPid => s.kernel.getPid.map fun (pid, k) => ⟨k, s.procs, some pid⟩
  | .enter p n k => some ⟨k, s.procs.take n ++ p :: s.procs.drop n, none⟩
  | .leave p k => some { s with kernel := k, procs := s.procs.erase p }

end PidState

/-- The calls of `get_pid` from boot on, with at most one new process after each of them. -/
def pidMachine (S : MemSys) : Machine (PidState S) (PidStep S) where
  init s := s.kernel.listLink.Ring .procList [] ∧ s.kernel.lastPid = maxPid ∧ s.kernel.nextSafe = maxPid ∧
    s.procs = [] ∧ s.pending = none
  enabled := PidState.allowed
  next := PidState.call

/-- What `get_pid` may rely on. -/
structure PidInv (s : PidState S) : Prop where
  list : s.kernel.listLink.Ring .procList (s.procs.map .listLink)
  last : 1 ≤ s.kernel.lastPid ∧ s.kernel.lastPid ≤ maxPid
  next : s.kernel.nextSafe ≤ maxPid
  gap : ∀ p ∈ s.procs, ¬ (s.kernel.lastPid < s.kernel.pid p ∧ s.kernel.pid p < s.kernel.nextSafe)
  pending : ∀ pid, s.pending = some pid → pid = s.kernel.lastPid

variable {s s' : PidState S} {k k' : Kernel S}

theorem PidInv.getPid (h : PidInv s) (ha : s.allowed .getPid) : ∃ l n,
    s.kernel.getPid = some (l, { s.kernel with lastPid := l, nextSafe := n }) ∧ 1 ≤ l ∧ l < n ∧ n ≤ maxPid ∧
      (∀ q ∈ s.procs, ¬ (l ≤ s.kernel.pid q ∧ s.kernel.pid q < n)) ∧
      PidInv ⟨{ s.kernel with lastPid := l, nextSafe := n }, s.procs, some l⟩ := by
  obtain ⟨l, n, hget, hl, hln, hn, hgap⟩ := getPid_spec h.list ha h.last h.next h.gap
  refine ⟨l, n, hget, hl, hln, hn, hgap, h.list, ⟨hl, (hln.trans_le hn).le⟩, hn, ?_, ?_⟩
  · exact fun q hq hc => hgap q hq ⟨hc.1.le, hc.2⟩
  · rintro pid ⟨⟩
    rfl

theorem PidInv.enter (h : PidInv s) (ha : s.allowed (.enter p n k)) :
    PidInv ⟨k, s.procs.take n ++ p :: s.procs.drop n, none⟩ := by
  obtain ⟨hp, hpid, hsame, hlist⟩ := ha
  refine ⟨?_, ?_, ?_, ?_, nofun⟩
  · have hring := h.list
    rw [← List.take_append_drop n s.procs, List.map_append] at hring
    change k.listLink.Ring _ _
    rw [hlist, List.map_append, List.map_cons]
    apply listAdd_getLastD hring
    rw [← List.map_append, List.take_append_drop]
    simpa using hp
  · rw [hsame.last]
    exact h.last
  · rw [hsame.next]
    exact h.next
  · intro q hq
    change ¬ (k.lastPid < k.pid q ∧ k.pid q < k.nextSafe)
    rw [hsame.last, hsame.next]
    have hq : q = p ∨ q ∈ s.procs := by
      rw [List.perm_middle.mem_iff, List.take_append_drop] at hq
      exact List.mem_cons.1 hq
    rcases hq with rfl | hq
    · rw [h.pending _ hpid]
      exact fun hc => lt_irrefl _ hc.1
    · rw [hsame.pid q hq]
      exact h.gap q hq

theorem PidInv.leave (h : PidInv s) (ha : s.allowed (.leave p k)) :
    PidInv { s with kernel := k, procs := s.procs.erase p } := by
  obtain ⟨hp, hsame, hlist⟩ := ha
  refine ⟨?_, ?_, ?_, ?_, ?_⟩
  · obtain ⟨xs, ys, hxs⟩ := List.append_of_mem hp
    have hring := h.list
    have hnd : (xs ++ p :: ys).Nodup := hxs ▸ hring.nodup_tail.of_map
    have herase : s.procs.erase p = xs ++ ys := by
      have hnot : p ∉ xs := fun hm => List.disjoint_of_nodup_append hnd hm List.mem_cons_self
      rw [hxs, List.erase_append_right _ hnot, List.erase_cons_head]
    change k.listLink.Ring _ ((s.procs.erase p).map _)
    rw [hlist, herase, List.map_append]
    rw [hxs, List.map_append, List.map_cons] at hring
    exact listDel_mid hring
  · rw [hsame.last]
    exact h.last
  · rw [hsame.next]
    exact h.next
  · intro q hq
    have hq : q ∈ s.procs := List.mem_of_mem_erase hq
    change ¬ (k.lastPid < k.pid q ∧ k.pid q < k.nextSafe)
    rw [hsame.last, hsame.next, hsame.pid q hq]
    exact h.gap q hq
  · rw [hsame.last]
    exact h.pending

theorem pid_reachable_inv (h : (pidMachine S).Reachable s) : PidInv s := by
  refine h.invariant PidInv ?_ ?_
  · rintro s ⟨hring, hlast, hnext, hprocs, hpending⟩
    refine ⟨?_, ?_, hnext.le, ?_, ?_⟩
    · rw [hprocs]
      exact hring
    · rw [hlast]
      decide
    · simp [hprocs]
    · simp [hpending]
  · intro s a s' hi ha hs
    cases a with
    | getPid =>
      obtain ⟨l, n, hget, -, -, -, -, hinv⟩ := hi.getPid ha
      change s.kernel.getPid.map _ = _ at hs
      rw [hget] at hs
      cases hs
      exact hinv
    | enter p n k =>
      cases hs
      exact hi.enter ha
    | leave p k =>
      cases hs
      exact hi.leave ha

/-- In every history `get_pid` returns a pid that no process has, and no process has a pid up to the bound it keeps. -/
theorem get_pid_fresh (h : (pidMachine S).Reachable s) (hlen : (s.procs.length : Int) < maxPid - 1) :
    s.kernel.listLink.Ring .procList (s.procs.map .listLink) ∧
    ∃ pid k, s.kernel.getPid = some (pid, k) ∧ 1 ≤ pid ∧ pid < maxPid ∧ k.lastPid = pid ∧
      (∀ p ∈ s.procs, k.pid p ≠ pid) ∧ ∀ x, k.lastPid < x → x < k.nextSafe → ∀ p ∈ s.procs, k.pid p ≠ x := by
  have hi := pid_reachable_inv h
  obtain ⟨l, n, hget, hl, hln, hn, hgap, -⟩ := hi.getPid hlen
  refine ⟨hi.list, l, _, hget, hl, hln.trans_le hn, rfl, ?_, ?_⟩
  · intro p hp he
    exact hgap p hp ⟨he.ge, he.trans_lt hln⟩
  · rintro x hlx hxn p hp rfl
    exact hgap p hp ⟨hlx.le, hxn⟩

/-- `do_fork` gives the new process its pid and puts it at the head of `proc_list`. -/
theorem setLinks_enter (hp : p ∉ s.procs) (hs : s.pending = some (k.pid p)) (he : SamePids s.kernel k s.procs)
    (hl : k.listLink = s.kernel.listLink) (hk : k.setLinks p = some k') : s.allowed (.enter p 0 k') := by
  cases hq : k.parent p with
  | none => simp [Kernel.setLinks, Kernel.setYptr, hq] at hk
  | some q =>
    rw [setLinks_eq hq] at hk
    cases hk
    exact ⟨hp, hs, ⟨he.last, he.next, he.pid⟩, congrArg (fun l => listAdd l _ _) hl⟩

theorem removeLinks_list (hk : k.removeLinks p = some k') :
    k'.listLink = listDel k.listLink (.listLink p) ∧ SamePids k k' ps := by
  unfold Kernel.removeLinks at hk
  simp only [Option.bind_eq_bind] at hk
  split at hk
  · cases hk
    split <;> exact ⟨rfl, rfl, rfl, fun _ _ => rfl⟩
  · obtain ⟨k₂, h₂, hk⟩ := Option.bind_eq_some_iff.1 hk
    obtain ⟨q, -, rfl⟩ := Option.map_eq_some_iff.1 h₂
    cases hk
    split <;> exact ⟨rfl, rfl, rfl, fun _ _ => rfl⟩

/-- `do_wait` takes the process off `proc_list`, wherever it is. -/
theorem removeLinks_leave (hp : p ∈ s.procs) (hk : s.kernel.removeLinks p = some k) : s.allowed (.leave p k) := by
  obtain ⟨hl, hsame⟩ := removeLinks_list hk
  exact ⟨hp, hsame, hl⟩

/-- Below the bound that it keeps, `get_pid` takes the next number. -/
theorem getPid_below (h : k.lastPid + 1 < k.nextSafe) (hmax : k.nextSafe ≤ maxPid) :
    k.getPid = some (k.lastPid + 1, { k with lastPid := k.lastPid + 1 }) := by
  unfold Kernel.getPid
  exact if_neg (by omega)

theorem count_reachable (n : Nat) (h : (pidMachine S).Reachable s) (hlen : (s.procs.length : Int) < maxPid - 1)
    (hn : s.kernel.lastPid + n < s.kernel.nextSafe) :
    ∃ pending, (pidMachine S).Reachable ⟨{ s.kernel with lastPid := s.kernel.lastPid + n }, s.procs, pending⟩ := by
  have hmax := (pid_reachable_inv h).next
  induction n with
  | zero =>
    refine ⟨s.pending, ?_⟩
    rw [Nat.cast_zero, add_zero]
    exact h
  | succ n ih =>
    rw [Nat.cast_succ, ← add_assoc] at hn ⊢
    obtain ⟨pending, hr⟩ := ih (by omega)
    have hget := getPid_below (k := { s.kernel with lastPid := s.kernel.lastPid + n }) hn hmax
    exact ⟨_, .step (a := PidStep.getPid) hr hlen (congrArg (Option.map _) hget)⟩

end

/-- The processes 7 and 8 keep their pids 1 and 2 while all others are handed out: then `get_pid` goes over the list
twice and returns 3. -/
theorem get_pid_fresh_wrap : ∃ s : PidState bumpSys, (pidMachine bumpSys).Reachable s ∧ s.procs = [8, 7] ∧
    s.kernel.lastPid = maxPid - 1 ∧ ∃ k, s.kernel.getPid = some (3, k) ∧ k.lastPid = 3 ∧
      (∀ p ∈ s.procs, k.pid p ≠ 3) ∧ ∀ x, k.lastPid < x → x < k.nextSafe → ∀ p ∈ s.procs, k.pid p ≠ x := by
  have hinit : (pidMachine bumpSys).Reachable ⟨bumpBoot, [], none⟩ :=
    .init ⟨⟨⟨rfl, rfl⟩, List.nodup_singleton _⟩, rfl, rfl, rfl, rfl⟩
  have hone : (pidMachine bumpSys).Reachable ⟨{ bumpBoot with lastPid := 1 }, [], some 1⟩ :=
    .step (a := PidStep.getPid) hinit (by change (0 : Int) < maxPid - 1; decide) rfl
  let k₁ : Kernel bumpSys :=
    { bumpBoot with
      lastPid := 1
      pid := update bumpBoot.pid 7 1
      listLink := listAdd bumpBoot.listLink .procList (.listLink 7) }
  have henter : (pidMachine bumpSys).Reachable ⟨k₁, [7], none⟩ :=
    .step (a := PidStep.enter 7 0 k₁) hone ⟨by simp, rfl, ⟨rfl, rfl, by simp⟩, rfl⟩ rfl
  have htwo : (pidMachine bumpSys).Reachable ⟨{ k₁ with lastPid := 2 }, [7], some 2⟩ :=
    .step (a := PidStep.getPid) henter (by change (1 : Int) < maxPid - 1; decide) rfl
  let k₂ : Kernel bumpSys :=
    { k₁ with
      lastPid := 2
      pid := update k₁.pid 8 2
      listLink := listAdd k₁.listLink .procList (.listLink 8) }
  have henter₂ : (pidMachine bumpSys).Reachable ⟨k₂, [8, 7], none⟩ :=
    .step (a := PidStep.enter 8 0 k₂) htwo ⟨by simp, rfl, ⟨rfl, rfl, by simp [k₂]⟩, rfl⟩ rfl
  obtain ⟨pending, hr⟩ := count_reachable 8189 henter₂ (by change (2 : Int) < maxPid - 1; decide) (by decide)
  obtain ⟨-, pid, k, hget, -, -, hlast, hfresh, hgap⟩ := get_pid_fresh hr (by change (2 : Int) < maxPid - 1; decide)
  have hval : (({ k₂ with lastPid := k₂.lastPid + (8189 : Nat) } : Kernel bumpSys).getPid).map Prod.fst = some 3 := by
    decide
  rw [hget] at hval
  obtain rfl : pid = 3 := Option.some.inj hval
  exact ⟨_, hr, rfl, rfl, k, hget, hlast, hfresh, hgap⟩

end UCore
