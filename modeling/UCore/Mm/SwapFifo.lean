import UCore.Lib.Machine
import UCore.Lib.Queues
import UCore.Libs.List
import UCore.Mm.Pmm

namespace UCore
set_option autoImplicit true
open Function (update)

/-- The list entries of the swap manager: `pra_list_head`, and the `pra_page_link` of a page. -/
inductive PraEntry where
  | praListHead
  | praPageLink (p : Nat)
  deriving DecidableEq, Repr

/-- The list of the FIFO manager, and whose `sm_priv` points to it. -/
structure SwapFifo where
  link : Links PraEntry
  smPriv : Nat → Bool

namespace SwapFifo

/-- `_fifo_init_mm`. -/
def initMm (s : SwapFifo) (mm : Nat) : SwapFifo where
  link := listInit s.link .praListHead
  smPriv := update s.smPriv mm true

/-- `_fifo_map_swappable`, with its assertion. -/
def mapSwappable (s : SwapFifo) (mm page : Nat) : Option SwapFifo :=
  if s.smPriv mm then some { s with link := listAddBefore s.link .praListHead (.praPageLink page) } else none

/-- `_fifo_swap_out_victim`, with its assertion: what it returns, and the entry that it makes a page of. -/
def swapOutVictim (s : SwapFifo) (mm : Nat) : Option ((Int × PraEntry) × SwapFifo) :=
  if s.smPriv mm then
    let entry := listNext s.link .praListHead
    some ((0, entry), { s with link := listDel s.link entry })
  else none

end SwapFifo

inductive FifoCall where
  | initMm (mm : Nat)
  | mapSwappable (mm page : Nat)
  | swapOutVictim (mm : Nat)
  deriving DecidableEq, Repr

/-- The manager beside what it is to implement: a queue for each `mm_struct`. The pages that are queued for
any of them are listed as `arrivals`, oldest first. -/
structure FifoState where
  fifo : SwapFifo
  queue : Nat → List Nat
  arrivals : List (Nat × Nat)

namespace FifoState

/-- An `mm_struct` is initialised before it is used, and a page is in one queue at most. -/
def allowed (s : FifoState) : FifoCall → Prop
  | .initMm _ => True
  | .mapSwappable mm page => s.fifo.smPriv mm = true ∧ ∀ x ∈ s.arrivals, x.2 ≠ page
  | .swapOutVictim mm => s.fifo.smPriv mm = true

def call (s : FifoState) : FifoCall → Option FifoState
  | .initMm mm => some {
      fifo := s.fifo.initMm mm
      queue := update s.queue mm []
      arrivals := s.arrivals.filter fun x => x.1 ≠ mm }
  | .mapSwappable mm page => (s.fifo.mapSwappable mm page).map fun f => {
      fifo := f
      queue := update s.queue mm (s.queue mm ++ [page])
      arrivals := s.arrivals ++ [(mm, page)] }
  | .swapOutVictim mm => (s.fifo.swapOutVictim mm).map fun r => {
      fifo := r.2
      queue := update s.queue mm (s.queue mm).tail
      arrivals := s.arrivals.eraseP fun x => x.1 = mm }

/-- `swap_out_victim` returns the page at the front of the queue, and reports failure if there is none. -/
def VictimRight (s : FifoState) (mm : Nat) : Prop :=
  ∃ r, s.fifo.swapOutVictim mm = some r ∧
    match s.queue mm with
    | [] => r.1.1 ≠ 0
    | page :: _ => r.1 = (0, .praPageLink page)

/-- No queue is set up while another one holds pages, and the oldest of all pages queued is evicted for its own
`mm_struct`. -/
def OldestOwn (s : FifoState) : FifoCall → Prop
  | .initMm mm => ∀ mm', mm' ≠ mm → s.queue mm' = []
  | .mapSwappable _ _ => True
  | .swapOutVictim mm => s.arrivals.head?.map Prod.fst = some mm

end FifoState

def fifoMachine : Machine FifoState FifoCall where
  init s := s.fifo.smPriv = (fun _ => false) ∧ s.queue = (fun _ => []) ∧ s.arrivals = []
  enabled s c := s.allowed c
  next s c := s.call c

/-- The list holds the pages of all queues. -/
structure FifoInv (s : FifoState) : Prop where
  ring : ∀ mm, s.fifo.smPriv mm = true → s.fifo.link.Ring .praListHead (s.arrivals.map fun x => .praPageLink x.2)
  queue : ∀ mm, s.queue mm = queueOf mm s.arrivals
  inits : ∀ x ∈ s.arrivals, s.fifo.smPriv x.1 = true

section
variable {s s' : FifoState}

theorem queues_empty (h : FifoInv s) (hq : ∀ mm', mm' ≠ mm → s.queue mm' = []) :
    s.arrivals.filter (fun x => x.1 ≠ mm) = [] := by
  apply List.filter_eq_nil_iff.2
  intro x hx hne
  have hmem : x.2 ∈ queueOf x.1 s.arrivals := mem_queueOf.2 hx
  rw [← h.queue, hq x.1 (of_decide_eq_true hne)] at hmem
  cases hmem

theorem fifo_call_inv (h : FifoInv s) (ha : s.allowed c) (hg : s.OldestOwn c) (hc : s.call c = some s') :
    FifoInv s' := by
  cases c with
  | initMm mm =>
    cases hc
    have hnil := queues_empty h hg
    constructor
    · intro mm' _
      rw [show s.arrivals.filter (fun x => x.1 ≠ mm) = [] from hnil]
      exact listInit_ring _ _
    · intro mm'
      dsimp only
      rw [queueOf_reset, ← h.queue]
      by_cases hm : mm = mm'
      · rw [if_pos hm, hm, Function.update_self]
      · rw [if_neg hm, Function.update_of_ne (Ne.symm hm)]
    · intro x hx
      rw [show s.arrivals.filter (fun x => x.1 ≠ mm) = [] from hnil] at hx
      cases hx
  | mapSwappable mm page =>
    obtain ⟨hon, hfresh⟩ := ha
    obtain ⟨f, hf, rfl⟩ := Option.map_eq_some_iff.1 hc
    rw [SwapFifo.mapSwappable, if_pos hon] at hf
    cases hf
    have hnew : PraEntry.praPageLink page ∉
        PraEntry.praListHead :: s.arrivals.map fun x => PraEntry.praPageLink x.2 := by
      intro hm
      cases hm with
      | tail _ hm =>
        obtain ⟨x, hx, heq⟩ := List.mem_map.1 hm
        exact hfresh x hx (PraEntry.praPageLink.inj heq)
    constructor
    · intro _ _
      rw [List.map_append]
      exact listAddBefore_head (h.ring mm hon) hnew
    · intro mm'
      dsimp only
      rw [queueOf_push, ← h.queue]
      by_cases hm : mm = mm'
      · rw [if_pos hm, hm, Function.update_self]
      · rw [if_neg hm, Function.update_of_ne (Ne.symm hm)]
    · intro x hx
      cases List.mem_append.1 hx with
      | inl hx => exact h.inits x hx
      | inr hx =>
        obtain rfl := List.mem_singleton.1 hx
        exact hon
  | swapOutVictim mm =>
    replace ha : s.fifo.smPriv mm = true := ha
    obtain ⟨r, hr, rfl⟩ := Option.map_eq_some_iff.1 hc
    rw [SwapFifo.swapOutVictim, if_pos ha] at hr
    cases hr
    obtain ⟨x, hx, rfl⟩ := Option.map_eq_some_iff.1 hg
    obtain ⟨rest, hrest⟩ := List.head?_eq_some_iff.1 hx
    have hring := h.ring x.1 ha
    rw [hrest] at hring
    have hfront : listNext s.fifo.link .praListHead = .praPageLink x.2 := hring.next_head
    have herase : s.arrivals.eraseP (fun y => y.1 = x.1) = rest := by
      rw [hrest, List.eraseP_cons_of_pos (by simp)]
    constructor
    · intro _ _
      dsimp only
      rw [herase, hfront]
      exact listDel_first hring
    · intro mm'
      dsimp only
      rw [queueOf_pop, ← h.queue]
      by_cases hm : x.1 = mm'
      · rw [if_pos hm, hm, Function.update_self]
      · rw [if_neg hm, Function.update_of_ne (Ne.symm hm)]
    · intro y hy
      exact h.inits y (List.mem_of_mem_eraseP hy)

theorem fifo_reachable_inv (h : (fifoMachine.restrict FifoState.OldestOwn).Reachable s) : FifoInv s := by
  refine h.restrict_invariant FifoInv (fun s hi => ?_) fun s c s' hs ha hg hn => fifo_call_inv hs ha hg hn
  obtain ⟨hoff, hq, harr⟩ := hi
  constructor
  · intro mm hmm
    rw [hoff] at hmm
    cases hmm
  · intro mm
    rw [hq, harr]
    rfl
  · intro x hx
    rw [harr] at hx
    cases hx

/-- The victim is the right one exactly if the oldest page queued is one of the same `mm_struct`. -/
theorem FifoInv.victim_iff (h : FifoInv s) (hon : s.fifo.smPriv mm = true) :
    s.VictimRight mm ↔ s.OldestOwn (.swapOutVictim mm) := by
  have hring := h.ring mm hon
  have hv : s.fifo.swapOutVictim mm = some ((0, listNext s.fifo.link .praListHead),
      { s.fifo with link := listDel s.fifo.link (listNext s.fifo.link .praListHead) }) := if_pos hon
  have hnext : listNext s.fifo.link .praListHead =
      (s.arrivals.map fun x => PraEntry.praPageLink x.2).headD .praListHead := hring.next_head
  constructor
  · rintro ⟨r, hr, hright⟩
    rw [hv] at hr
    cases hr
    show s.arrivals.head?.map Prod.fst = some mm
    cases harr : s.arrivals with
    | nil =>
      rw [h.queue, harr] at hright
      exact absurd rfl hright
    | cons x rest =>
      rw [hnext, h.queue, harr] at hright
      by_cases hx : x.1 = mm
      · rw [List.head?_cons, Option.map_some, hx]
      · -- the page that is returned is not in the queue
        have hnd := hring.nodup_tail
        rw [harr, List.map_cons, List.nodup_cons] at hnd
        cases hq : queueOf mm (x :: rest) with
        | nil =>
          rw [hq] at hright
          exact absurd rfl hright
        | cons page q =>
          rw [hq] at hright
          obtain rfl : x.2 = page := PraEntry.praPageLink.inj (Prod.mk.inj hright).2
          have hmem : (mm, x.2) ∈ x :: rest := by
            rw [← mem_queueOf, hq]
            exact List.mem_cons_self ..
          rcases List.mem_cons.1 hmem with heq | hmem
          · exact absurd (congrArg Prod.fst heq).symm hx
          · exact absurd (List.mem_map_of_mem hmem) hnd.1
  · intro hg
    obtain ⟨x, hx, rfl⟩ := Option.map_eq_some_iff.1 hg
    obtain ⟨rest, hrest⟩ := List.head?_eq_some_iff.1 hx
    refine ⟨_, hv, ?_⟩
    have hq : s.queue x.1 = x.2 :: queueOf x.1 rest := by
      rw [h.queue, hrest]
      simp [queueOf]
    rw [hq, hnext, hrest]
    rfl

/-- Setting up another queue keeps the pages that are queued exactly if there are none of other owners. -/
theorem init_victims_iff (hc : s.call (.initMm mm) = some s') :
    (∀ mm', s'.queue mm' ≠ [] → s'.VictimRight mm') ↔ s.OldestOwn (.initMm mm) := by
  cases hc
  constructor
  · intro hall mm' hne
    by_contra hq
    have hq' : update s.queue mm [] mm' ≠ [] := by rwa [Function.update_of_ne hne]
    obtain ⟨r, hr, hright⟩ := hall mm' hq'
    dsimp only at hright hr
    rw [Function.update_of_ne hne] at hright
    unfold SwapFifo.swapOutVictim at hr
    split at hr
    · cases hr
      have hnext : listNext (s.fifo.initMm mm).link .praListHead = .praListHead := (listInit_ring _ _).next_head
      rw [hnext] at hright
      cases hp : s.queue mm' with
      | nil => exact hq hp
      | cons page q =>
        rw [hp] at hright
        cases hright
    · cases hr
  · intro hg mm' hq
    by_cases hm : mm' = mm
    · rw [hm] at hq
      exact absurd (Function.update_self ..) hq
    · exact absurd ((Function.update_of_ne hm ..).trans (hg mm' hm)) hq

/-- In every run in which no queue is set up over the pages of another one and only the oldest page is evicted,
for its own `mm_struct`, the victims are those of independent queues; and no other step keeps them so. -/
theorem fifo_queues (h : (fifoMachine.restrict FifoState.OldestOwn).Reachable s) :
    (∀ mm, s.fifo.smPriv mm = true → (s.VictimRight mm ↔ s.OldestOwn (.swapOutVictim mm))) ∧
    ∀ mm s', s.call (.initMm mm) = some s' →
      ((∀ mm', s'.queue mm' ≠ [] → s'.VictimRight mm') ↔ s.OldestOwn (.initMm mm)) := by
  have hinv := fifo_reachable_inv h
  exact ⟨fun mm hon => hinv.victim_iff hon, fun mm s' hc => init_victims_iff hc⟩

end

instance (s : FifoState) (c : FifoCall) : Decidable (fifoMachine.enabled s c) :=
  match c with
  | .initMm _ => .isTrue trivial
  | .mapSwappable mm page => inferInstanceAs (Decidable (s.fifo.smPriv mm = true ∧ ∀ x ∈ s.arrivals, x.2 ≠ page))
  | .swapOutVictim mm => inferInstanceAs (Decidable (s.fifo.smPriv mm = true))

/-- The manager before any `mm_struct` is set up. -/
def noQueues : FifoState := ⟨⟨⟨id, id⟩, fun _ => false⟩, fun _ => [], []⟩

/-- Setting up a second `mm_struct` loses the page of the first one. -/
theorem fifo_queue_lost : ∃ s, fifoMachine.Reachable s ∧ s.fifo.smPriv 1 = true ∧ s.queue 1 = [10] ∧
    ¬ s.VictimRight 1 := by
  have hrun : (fifoMachine.exec noQueues [.initMm 1, .mapSwappable 1 10, .initMm 2]).map (fun s =>
      (s.fifo.smPriv 1, s.queue 1, (s.fifo.swapOutVictim 1).map Prod.fst)) =
      some (true, [10], some (0, .praListHead)) := by decide
  obtain ⟨s, hs, hval⟩ := Option.map_eq_some_iff.1 hrun
  obtain ⟨hon, hval⟩ := Prod.mk.inj hval
  obtain ⟨hq, hv⟩ := Prod.mk.inj hval
  refine ⟨s, Machine.Reachable.exec (.init ⟨rfl, rfl, rfl⟩) hs, hon, hq, fun ⟨r, hr, hright⟩ => ?_⟩
  rw [hr] at hv
  obtain ⟨⟨ret, entry⟩, f⟩ := r
  cases hv
  rw [hq] at hright
  cases hright

/-- Two `mm_struct`s have pages queued, and after the oldest one is evicted the next victim is right for the second
of them only. -/
theorem fifo_queues_two : ∃ s : FifoState, s.queue 1 = [11] ∧ s.queue 2 = [20] ∧ s.VictimRight 2 ∧ ¬ s.VictimRight 1 := by
  have h₁ : (fifoMachine.restrict FifoState.OldestOwn).Reachable _ :=
    .step (a := FifoCall.initMm 1) (.init (s := noQueues) ⟨rfl, rfl, rfl⟩) ⟨trivial, fun _ _ => rfl⟩ rfl
  have h₂ : (fifoMachine.restrict FifoState.OldestOwn).Reachable _ :=
    .step (a := FifoCall.initMm 2) h₁ ⟨trivial, fun mm _ => congrFun (Function.update_eq_self 1 noQueues.queue) mm⟩ rfl
  have h₃ : (fifoMachine.restrict FifoState.OldestOwn).Reachable _ :=
    .step (a := FifoCall.mapSwappable 1 10) h₂ ⟨⟨rfl, by decide⟩, trivial⟩ rfl
  have h₄ : (fifoMachine.restrict FifoState.OldestOwn).Reachable _ :=
    .step (a := FifoCall.mapSwappable 2 20) h₃ ⟨⟨rfl, by decide⟩, trivial⟩ rfl
  have h₅ : (fifoMachine.restrict FifoState.OldestOwn).Reachable _ :=
    .step (a := FifoCall.mapSwappable 1 11) h₄ ⟨⟨rfl, by decide⟩, trivial⟩ rfl
  have h₆ : (fifoMachine.restrict FifoState.OldestOwn).Reachable _ :=
    .step (a := FifoCall.swapOutVictim 1) h₅ ⟨rfl, rfl⟩ rfl
  refine ⟨_, rfl, rfl, ((fifo_queues h₆).1 2 rfl).2 rfl, fun hv => ?_⟩
  have hone : some 2 = some 1 := ((fifo_queues h₆).1 1 rfl).1 hv
  cases hone

/-- The list of the manager is the one of the memory. -/
structure SwapFifo.Holds {A : PhysSys} (f : SwapFifo) (m : Mem A) : Prop where
  ring : ∀ mm, f.smPriv mm = true → f.link.Ring .praListHead (m.praList.map .praPageLink)
  priv : ∀ mm, f.smPriv mm = (m.mms mm).smPriv

section
variable {A : PhysSys} {m m' : Mem A} {f : SwapFifo}

theorem SwapFifo.Holds.initMm (h : f.Holds m) (mm : Nat) : (f.initMm mm).Holds (m.swapInitMm mm) where
  ring _ _ := listInit_ring _ _
  priv mm' := by
    show update f.smPriv mm true mm' = (update m.mms mm _ mm').smPriv
    by_cases hm : mm' = mm
    · rw [hm, Function.update_self, Function.update_self]
    · rw [Function.update_of_ne hm, Function.update_of_ne hm, h.priv]

theorem SwapFifo.Holds.mapSwappable (h : f.Holds m) (hp : page ∉ m.praList)
    (hm : m.swapMapSwappable mm page = some m') : ∃ f', f.mapSwappable mm page = some f' ∧ f'.Holds m' := by
  unfold Mem.swapMapSwappable at hm
  split at hm
  · rename_i hon
    cases hm
    rw [← h.priv] at hon
    refine ⟨_, if_pos hon, fun _ _ => ?_, h.priv⟩
    rw [List.map_append]
    refine listAddBefore_head (h.ring mm hon) fun hmem => ?_
    cases hmem with
    | tail _ hmem =>
      obtain ⟨q, hq, heq⟩ := List.mem_map.1 hmem
      rw [PraEntry.praPageLink.inj heq] at hq
      exact hp hq
  · cases hm

theorem SwapFifo.Holds.swapOutVictim (h : f.Holds m) (hv : m.swapOutVictim mm = some (page, m')) :
    ∃ f', f.swapOutVictim mm = some ((0, .praPageLink page), f') ∧ f'.Holds m' := by
  unfold Mem.swapOutVictim at hv
  split at hv
  · rename_i hon
    rw [← h.priv] at hon
    cases hl : m.praList with
    | nil =>
      rw [hl] at hv
      cases hv
    | cons p rest =>
      rw [hl] at hv
      cases hv
      have hring := h.ring mm hon
      rw [hl, List.map_cons] at hring
      have hfront : listNext f.link .praListHead = .praPageLink page := hring.next_head
      refine ⟨{ f with link := listDel f.link (.praPageLink page) }, ?_, fun _ _ => listDel_first hring, h.priv⟩
      rw [SwapFifo.swapOutVictim, if_pos hon, hfront]
  · cases hv

end

end UCore
